import Vin64.Vram.SectionCreate

/-!
# What `create` stores

It asks the file all its questions and then returns; none of the fields is assigned.
-/

namespace Vin64.Vram.SectionFields

variable {φ : Type} {Q : FileQueries φ} {s t : SectionFields} {files files' : Nat → φ} {f : Nat}
  {size : BitVec 64} {acc : BitVec 32}

/-- A call that succeeds leaves the section as it was; the file is long enough afterwards, unless
it is read-only and was too short. -/
theorem create_ok (hQ : Resizes Q) (h : s.create Q files f size acc = (.ok (), t, files')) :
    t = s ∧ ∃ facc fs, Q.access (files f) = .ok facc ∧ Q.length (files f) = .ok fs ∧
      ((∃ len, Q.length (files' f) = .ok len ∧ wanted size fs ≤ len) ↔
        (facc &&& FILE_WRITE_ACCESS = 0 → wanted size fs ≤ fs)) := by
  unfold create at h
  cases haccess : Q.access (files f) with
  | error hr =>
      rw [haccess] at h
      cases h
  | ok facc =>
      simp only [haccess] at h
      split at h
      · cases h
      · cases hlength : Q.length (files f) with
        | error hr =>
            rw [hlength] at h
            cases h
        | ok fs =>
            simp only [hlength] at h
            split at h
            · rename_i hgrow
              cases hresize : Q.resize (wanted size fs) (files f) with
              | mk r x =>
                  rw [hresize] at h
                  cases r with
                  | error hr => cases h
                  | ok u =>
                      cases h
                      have hlen := hQ.length _ _ _ hresize
                      refine ⟨rfl, facc, fs, rfl, rfl, fun _ hfw => absurd hfw hgrow.1, fun _ => ?_⟩
                      rw [Function.update_self]
                      exact ⟨_, hlen, BitVec.le_refl _⟩
            · rename_i hgrow
              cases h
              refine ⟨rfl, facc, fs, rfl, rfl, ?_, ?_⟩
              · intro ⟨len, hlen, hle⟩ _
                cases hlength.symm.trans hlen
                exact hle
              · intro hshort
                refine ⟨fs, hlength, ?_⟩
                by_cases hfw : facc &&& FILE_WRITE_ACCESS = 0
                · exact hshort hfw
                · exact BitVec.not_lt.1 fun hlt => hgrow ⟨hfw, hlt⟩

/-- A call that fails leaves everything as it was. -/
theorem create_error (hQ : Resizes Q) {hr : HRESULT}
    (h : s.create Q files f size acc = (.error hr, t, files')) :
    t = s ∧ files' = files ∧ Refused Q (files f) size acc := by
  unfold create at h
  cases haccess : Q.access (files f) with
  | error hr' =>
      rw [haccess] at h
      cases h
      exact ⟨rfl, rfl, .access haccess⟩
  | ok facc =>
      simp only [haccess] at h
      split at h
      · rename_i hdenied
        cases h
        exact ⟨rfl, rfl, .denied haccess hdenied.1 hdenied.2⟩
      · cases hlength : Q.length (files f) with
        | error hr' =>
            rw [hlength] at h
            cases h
            exact ⟨rfl, rfl, .length hlength⟩
        | ok fs =>
            simp only [hlength] at h
            split at h
            · rename_i hgrow
              cases hresize : Q.resize (wanted size fs) (files f) with
              | mk r x =>
                  rw [hresize] at h
                  cases r with
                  | error hr' =>
                      cases h
                      obtain rfl := hQ.fails _ _ _ _ hresize
                      exact ⟨rfl, Function.update_eq_self f files,
                        .resize haccess hgrow.1 hlength hgrow.2 (congrArg Prod.fst hresize)⟩
                  | ok u => cases h
            · cases h

/-- What is refused fails. -/
theorem Refused.create (h : Refused Q (files f) size acc) :
    ∃ hr t files', s.create Q files f size acc = (.error hr, t, files') := by
  unfold SectionFields.create
  cases haccess : Q.access (files f) with
  | error hr => exact ⟨_, _, _, rfl⟩
  | ok facc =>
      dsimp only
      split
      · exact ⟨_, _, _, rfl⟩
      · rename_i hdenied
        cases hlength : Q.length (files f) with
        | error hr => exact ⟨_, _, _, rfl⟩
        | ok fs =>
            cases h with
            | access h => cases haccess.symm.trans h
            | denied h hfw hsw =>
                cases haccess.symm.trans h
                exact absurd ⟨hfw, hsw⟩ hdenied
            | length h => cases hlength.symm.trans h
            | resize h hfw h' hlt hresize =>
                cases haccess.symm.trans h
                cases hlength.symm.trans h'
                dsimp only
                rw [if_pos ⟨hfw, hlt⟩]
                cases hcall : Q.resize (wanted size fs) (files f) with
                | mk r x =>
                    rw [hcall] at hresize
                    obtain rfl := hresize
                    exact ⟨_, _, _, rfl⟩

/-- The law holds where the call fails, and where the section serves the file already. -/
theorem createLaw_iff (hQ : Resizes Q) : s.CreateLaw Q files f size acc ↔
    Refused Q (files f) size acc ∨ s.Already Q (files f) f size := by
  cases hcall : s.create Q files f size acc with
  | mk r rest =>
      obtain ⟨t, files'⟩ := rest
      cases r with
      | error hr =>
          obtain ⟨rfl, rfl, hrefused⟩ := create_error hQ hcall
          refine ⟨fun _ => .inl hrefused, fun _ => ⟨fun t files' h => ?_, fun hr t files' h => ?_⟩⟩
          · cases hcall.symm.trans h
          · cases hcall.symm.trans h
            exact ⟨rfl, rfl⟩
      | ok u =>
          obtain ⟨rfl, facc, fs, haccess, hlength, hfits⟩ := create_ok hQ hcall
          constructor
          · intro hlaw
            obtain ⟨hfile, ⟨fs', hlength', hsize⟩, ⟨len, hlen, hle⟩, hwritable⟩ :=
              hlaw.serves t files' hcall
            cases hlength.symm.trans hlength'
            refine .inr ⟨hfile, ⟨fs, hlength, hsize⟩, fun facc' fs' ha hl hfw => ?_, hwritable⟩
            cases haccess.symm.trans ha
            cases hlength.symm.trans hl
            exact hfits.1 ⟨len, hlen, hsize ▸ hle⟩ hfw
          · rintro (hrefused | halready)
            · obtain ⟨hr, t', files'', herror⟩ := hrefused.create (s := t)
              cases hcall.symm.trans herror
            · obtain ⟨hfile, ⟨fs', hlength', hsize⟩, hshort, hwritable⟩ := halready
              cases hlength.symm.trans hlength'
              refine ⟨fun t' files'' h => ?_, fun hr t' files'' h => ?_⟩
              · cases hcall.symm.trans h
                obtain ⟨len, hlen, hle⟩ := hfits.2 (hshort facc fs haccess hlength)
                exact ⟨hfile, ⟨fs, hlength, hsize⟩, ⟨len, hlen, hsize ▸ hle⟩, hwritable⟩
              · cases hcall.symm.trans h

/-! ## A file in memory -/

/-- A file that is its length, with the access it was opened with. -/
def memoryFile (facc : BitVec 32) : FileQueries (BitVec 64) where
  access _ := .ok facc
  length x := .ok x
  resize size _ := (.ok (), size)

theorem memoryFile_resizes (facc : BitVec 32) : Resizes (memoryFile facc) := by
  constructor
  · intro size x y h
    cases h
    rfl
  · intro size x y hr h
    cases h

/-- Write mapping of a file that is read-only. -/
theorem createLaw_denied : new.CreateLaw (memoryFile 1) (fun _ => 0x1000) 7 (-1) SECTION_MAP_WRITE :=
  (createLaw_iff (memoryFile_resizes 1)).2 (.inl (.denied rfl (by decide) (by decide)))

/-- A section that was just made and a file of one page. -/
theorem not_createLaw_page : ¬ ∀ (Q : FileQueries (BitVec 64)) (s : SectionFields)
    (files : Nat → BitVec 64) (f : Nat) (size : BitVec 64) (acc : BitVec 32), Resizes Q →
      s.CreateLaw Q files f size acc := by
  intro hall
  have hlaw := hall (memoryFile 3) new (fun _ => 0x1000) 7 (-1) SECTION_MAP_WRITE
    (memoryFile_resizes 3)
  cases (hlaw.serves _ _ rfl).file

end Vin64.Vram.SectionFields
