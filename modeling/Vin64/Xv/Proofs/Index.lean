import Vin64.Xv.Proofs.Lost

/-!
# Which indices are read back

The writer puts seven bits of an index into each byte and goes on until none is left; the reader
stops after five bytes.
-/

namespace Vin64.Xv

open Vin64.Lib.Op Vin64.Utils

variable {x : Header} {v : BitVec x.target.sizeBits}

theorem lt_of_indexTrips (h : IndexTrips x v) : v.toNat < 2 ^ 35 := by
  obtain ⟨u, hread, -⟩ := h [] ⟨writeLeb128 x.target v.toNat, []⟩ .start (List.append_nil _).symm
  have hbits : wlp (fetchLeb128 x ⟨writeLeb128 x.target v.toNat, []⟩ 5)
      (fun r _ => r.2.toNat < 2 ^ ((0 + 5) * 7)) (fun _ _ => True) .start :=
    leb128Loop_lt (by simp)
  have hlow := wlp_ok hbits hread
  exact hlow

theorem indexTrips_of_lt (h : v.toNat < 2 ^ 35) : IndexTrips x v := by
  intro s src t hdrop
  have hread : fetchLeb128 x src 5 t =
      some (.ok ((writeLeb128 x.target v.toNat).length, BitVec.ofNat _ v.toNat),
        t.to (t.current + (writeLeb128 x.target v.toNat).length)) :=
    fetchLeb128_written ⟨s, hdrop.symm⟩ v.isLt h
  rw [BitVec.ofNat_toNat, BitVec.setWidth_eq] at hread
  exact ⟨_, hread, rfl⟩

/-- The indices that fit into five bytes are the ones that are read back. -/
theorem indexTrips_iff (x : Header) (v : BitVec x.target.sizeBits) :
    IndexTrips x v ↔ v.toNat < 2 ^ 35 :=
  ⟨lt_of_indexTrips, indexTrips_of_lt⟩

/-- On the build of 32 bits these are all indices. -/
theorem indexTrips_of_x86 (hx : x.target = .x86) : IndexTrips x v := by
  apply indexTrips_of_lt
  have hlt := v.isLt
  have hpow : 2 ^ x.target.sizeBits = 2 ^ 32 := by rw [hx]; rfl
  omega

/-- The first index of six bytes. -/
theorem not_indexTrips_six :
    ¬ ∀ (x : Header) (v : BitVec x.target.sizeBits), IndexTrips x v := by
  intro hall
  have htrips := hall ((layout false).header 254 .x64) (BitVec.ofNat 64 (2 ^ 35))
  exact absurd (lt_of_indexTrips htrips) (by decide)

end Vin64.Xv
