import Vin64.Lib.Tiling
import Vin64.Lib.Masks
import Vin64.Lib.Run
import Vin64.Utils.Dllist
import Vin64.Utils.Proofs.Layout
import Vin64.Utils.ListUsers
import Vin64.Utils.Proofs.ListUsers
import Vin64.Lib.Quoting
import Vin64.Lib.OptionGrammar
import Vin64.Utils.Arguments
import Vin64.Utils.Proofs.Cmdline
import Vin64.Utils.Proofs.Options
import Vin64.Utils.Proofs.Aliases
import Vin64.Utils.Libstr
import Vin64.Utils.Proofs.Libstr
import Vin64.Utils.Murmur
import Vin64.Utils.Proofs.Murmur
import Vin64.Space.Region
import Vin64.Space.Protect
import Vin64.Space.Proofs.BlockOps
import Vin64.Space.Proofs.Protect
import Vin64.Space.AddressSpace
import Vin64.Space.Sections
import Vin64.Space.Contracts
import Vin64.Space.Proofs.ProtectFails
import Vin64.Space.Proofs.Merging
import Vin64.Space.BlockFree
import Vin64.Space.Proofs.BlockFree
import Vin64.Space.Proofs.Carving
import Vin64.Space.Proofs.Links
import Vin64.Space.Proofs.Sections
import Vin64.Space.Proofs.Freeing
import Vin64.Space.Proofs.Allocations
import Vin64.Space.Proofs.TopDown
import Vin64.Space.Blocks
import Vin64.Space.Proofs.FindBlock
import Vin64.Space.Proofs.Coalesce
import Vin64.Lib.Op
import Vin64.Lib.Cells
import Vin64.Utils.Bitmap
import Vin64.Utils.BitmapCalls
import Vin64.Utils.Proofs.Bitmap
import Vin64.Utils.Target
import Vin64.Vram.Manager
import Vin64.Vram.Calls
import Vin64.Vram.Store
import Vin64.Vram.Proofs.Ops
import Vin64.Vram.Proofs.Moves
import Vin64.Vram.Proofs.Calls
import Vin64.Vram.Proofs.Runs
import Vin64.Vram.Proofs.Fresh
import Vin64.Vram.Proofs.Owners
import Vin64.Vram.Proofs.Partial
import Vin64.Vram.Proofs.Faults
import Vin64.Vram.Proofs.Leaks
import Vin64.Vram.Proofs.Locks
import Vin64.Vram.Proofs.Search
import Vin64.Vram.Proofs.Stable
import Vin64.Vram.Proofs.Idle
import Vin64.Vram.Proofs.Direct
import Vin64.Vram.PageFile
import Vin64.Vram.Proofs.PageFile
import Vin64.Vram.FileSection
import Vin64.Vram.Proofs.FileSection
import Vin64.Vram.SectionCreate
import Vin64.Vram.Proofs.SectionCreate
import Vin64.Vram.Proofs.Answers
import Vin64.Lib.Radix
import Vin64.Vm.Manager
import Vin64.Vm.Clients
import Vin64.Vm.Proofs.Rules
import Vin64.Vm.Proofs.Clients
import Vin64.Vm.Proofs.Direct
import Vin64.Vm.Private
import Vin64.Vm.Proofs.Private
import Vin64.Vm.X64
import Vin64.Vm.PageTable
import Vin64.Vm.PageMap
import Vin64.Vm.Proofs.Entries
import Vin64.Vm.Proofs.Walk
import Vin64.Vm.Proofs.Alloc
import Vin64.Vm.Proofs.Fresh
import Vin64.Vm.Proofs.Mapping
import Vin64.Vm.Proofs.Tables
import Vin64.Vm.Proofs.Ends
import Vin64.Vm.Proofs.Refines
import Vin64.Vm.Proofs.Moves
import Vin64.Vm.Proofs.Saves
import Vin64.Vm.Proofs.Evicted
import Vin64.Vm.Proofs.Load
import Vin64.Vm.Lifetime
import Vin64.Vm.Proofs.Lifetime
import Vin64.Vm.Proofs.Memory
import Vin64.Vm.Proofs.Attributes
import Vin64.Vm.Section
import Vin64.Vm.Proofs.Section
import Vin64.Vm.Proofs.Pages
import Vin64.Vm.Construct
import Vin64.Vm.Proofs.Construct
import Vin64.Lib.SortedMap
import Vin64.Utils.Refp
import Vin64.Utils.Proofs.Refp
import Vin64.Utils.Proofs.Doomed
import Vin64.Kernel.Handles
import Vin64.Kernel.Proofs.Handles
import Vin64.Kernel.Proofs.LiveHandles
import Vin64.Lib.View
import Vin64.Vx64.Registry
import Vin64.Vx64.Proofs.Registry
import Vin64.Lib.Ranges
import Vin64.Vx64.FlatView
import Vin64.Vx64.Proofs.FlatView
import Vin64.Vx64.Topology
import Vin64.Vx64.Proofs.Topology
import Vin64.Vx64.PhysMap
import Vin64.Vx64.Proofs.PhysMap
import Vin64.Vx64.Dispatch
import Vin64.Vx64.Proofs.Dispatch
import Vin64.Vx64.Proofs.Commit
import Vin64.Vx64.RamList
import Vin64.Vx64.Proofs.RamList
import Vin64.Vx64.Machine
import Vin64.Vx64.Guest
import Vin64.Vx64.Proofs.Windows
import Vin64.Vx64.Proofs.Machine
import Vin64.Kernel.SectionUsers
import Vin64.Kernel.Proofs.SectionUsers
import Vin64.Kernel.Proofs.Views
import Vin64.Tools.SparseFile
import Vin64.Tools.Proofs.SparseFile
import Vin64.Tools.Serial
import Vin64.Tools.Proofs.Serial
import Vin64.Tools.Proofs.Unsparse
import Vin64.Tools.Dll2desc
import Vin64.Tools.Proofs.Dll2desc
import Vin64.Lib.NameTree
import Vin64.Kernel.Vfs
import Vin64.Kernel.Names
import Vin64.Kernel.Proofs.Paths
import Vin64.Kernel.Proofs.Lookup
import Vin64.Kernel.Proofs.Creation
import Vin64.Kernel.Proofs.Mounts
import Vin64.Kernel.Proofs.Names
import Vin64.Kernel.Proofs.NoForce
import Vin64.Kernel.Proofs.Labels
import Vin64.Kernel.Proofs.FullPath
import Vin64.Kernel.Tokens
import Vin64.Kernel.Proofs.Tokens
import Vin64.Ob.Mountable
import Vin64.Ob.Proofs.Mountable
import Vin64.Ob.Tree
import Vin64.Ob.Proofs.Tree
import Vin64.Lib.OrderedSet
import Vin64.Kernel.Children
import Vin64.Kernel.Proofs.Children
import Vin64.Kernel.Proofs.NodeChildren
import Vin64.Kernel.Proofs.Erase
import Vin64.Kernel.Proofs.Repeat
import Vin64.Xv.Types
import Vin64.Xv.Reader
import Vin64.Xv.Proofs.Reader
import Vin64.Xv.Format
import Vin64.Xv.Proofs.Fields
import Vin64.Xv.Proofs.Format
import Vin64.Xv.Writer
import Vin64.Xv.RoundTrip
import Vin64.Xv.Proofs.Written
import Vin64.Xv.Proofs.RoundTrip
import Vin64.Xv.Proofs.Lost
import Vin64.Xv.Proofs.Index
import Vin64.Xv.XValue
import Vin64.Xv.Proofs.XValue
import Vin64.Lib.KeyedGraph
import Vin64.Xv.Heap
import Vin64.Xv.Sharing
import Vin64.Xv.Proofs.Heap
import Vin64.Xv.Proofs.HeapObjects
import Vin64.Xv.Proofs.ValueSet
import Vin64.Xv.Proofs.CloneTo
import Vin64.Xv.Proofs.ValueClone
import Vin64.Xv.Proofs.HeapSteps
import Vin64.Xv.Proofs.Clones
import Vin64.Xv.Calls
import Vin64.Xv.Proofs.Held
import Vin64.Xv.Proofs.Calls
import Vin64.Xv.Proofs.Counts
import Vin64.Lib.LowBits
import Vin64.Lib.Ring
import Vin64.Vx64.Jumps
import Vin64.Vx64.Proofs.Jumps
import Vin64.Vx64.Proofs.PageBitmap
import Vin64.Vx64.Proofs.TranslateAll
import Vin64.Vx64.Proofs.Translations
import Vin64.Vx64.Proofs.Protection
