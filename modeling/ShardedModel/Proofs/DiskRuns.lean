import ShardedModel.Files.Disk
import ShardedModel.Proofs.Outcome

/-!
# Programs that run on a disk

Where a path leads depends on the directories of a disk and on nothing else. So a path that led
somewhere leads there still when directories have been made, and when a file was written or moved.
A disk on which every place lies in a directory stays such a disk, and on it a path can lead to
something other than a directory only by a last step with a proper name.
-/

namespace ShardedModel

open Outcome

/-! ## Running -/

section Running

variable {β : Type} {disk disk' : Disk}

theorem run_read (path : String) (disk : Disk) :
    (Files.read path : ExceptT Failure (StateM Disk) _).run.run disk = (disk.read path, disk) :=
  run_liftExcept (disk.read path) disk

/-- Reading a file, decoding it and checking what it holds. -/
theorem run_checked {decode : List UInt8 → Outcome β} {check : β → Outcome Unit} {path : String}
    {content : List UInt8} {b : β} (hread : disk.read path = .ok content)
    (hdecode : decode content = .ok b) :
    (do
      let content ← (Files.read path : ExceptT Failure (StateM Disk) (List UInt8))
      let b ← liftExcept (decode content)
      liftExcept (check b)
      return b).run.run disk = ((check b).map fun _ => b, disk) := by
  rw [run_bind_of_ok _ ((run_read path disk).trans (by rw [hread])),
    run_bind_of_ok _ ((run_liftExcept _ disk).trans (by rw [hdecode]))]
  cases check b with
  | error e => exact run_bind_of_error _ (run_liftExcept _ disk)
  | ok => exact run_bind_of_ok _ (run_liftExcept _ disk)

theorem run_change (operation : Disk → Outcome Disk) (disk : Disk) :
    (Disk.change operation).run.run disk =
      ((operation disk).map fun _ => (), ((operation disk).toOption).getD disk) := by
  rw [Disk.change, run_bind_of_ok _ (run_get disk)]
  cases h : operation disk with
  | ok after => rfl
  | error e => rfl

theorem run_change_eq_ok {operation : Disk → Outcome Disk} :
    (Disk.change operation).run.run disk = (.ok (), disk') ↔ operation disk = .ok disk' := by
  rw [run_change]
  cases operation disk with
  | error e =>
      constructor <;> intro h <;> cases h
  | ok after =>
      constructor <;> intro h <;> cases h <;> rfl

end Running

namespace Disk

variable {d d' : Disk}

/-! ## Where a path leads -/

/-- Whatever is a directory stays one. -/
structure KeepsDirectories (d d' : Disk) : Prop where
  here : d'.here = d.here
  directory {place : List String} : d.get? place = some .directory → d'.get? place = some .directory

namespace KeepsDirectories

theorem trans {d'' : Disk} (h : d.KeepsDirectories d') (h' : d'.KeepsDirectories d'') :
    d.KeepsDirectories d'' :=
  ⟨h'.here.trans h.here, fun hplace => h'.directory (h.directory hplace)⟩

theorem walk (h : d.KeepsDirectories d') {steps place final : List String}
    (hwalk : d.walk place steps = .ok final) : d'.walk place steps = .ok final := by
  induction steps generalizing place with
  | nil => exact hwalk
  | cons step rest ih =>
      rw [Disk.walk] at hwalk ⊢
      cases hplace : d.get? place with
      | none => simp [hplace] at hwalk
      | some entry =>
          cases entry with
          | file content => simp [hplace] at hwalk
          | directory =>
              simp only [hplace, h.directory hplace] at hwalk ⊢
              split at hwalk
              · cases hwalk
              · next hname =>
                  rw [if_neg hname]
                  exact ih hwalk

theorem locate (h : d.KeepsDirectories d') {path : String} {place : List String}
    (hlocate : d.locate path = .ok place) : d'.locate path = .ok place := by
  obtain ⟨⟨⟩, htext, hwalk⟩ := bind_eq_ok.mp hlocate
  rw [Disk.locate, htext, ok_bind, h.here]
  exact h.walk hwalk

end KeepsDirectories

section Put

variable {place : List String}

theorem ne_nil_of_not_directory (h : d.get? place ≠ some .directory) : place ≠ [] := by
  rintro rfl
  exact h rfl

theorem keepsDirectories_put (h : d.get? place ≠ some .directory) (entry : Entry) :
    d.KeepsDirectories (d.put place entry) := by
  refine ⟨rfl, fun {other} hother => ?_⟩
  rw [get?_put _ _ _ (ne_nil_of_not_directory h), if_neg, hother]
  rintro rfl
  exact h hother

theorem keepsDirectories_remove (h : d.get? place ≠ some .directory) :
    d.KeepsDirectories (d.remove place) := by
  refine ⟨rfl, fun {other} hother => ?_⟩
  rw [get?_remove _ _ (ne_nil_of_not_directory h), if_neg, hother]
  rintro rfl
  exact h hother

/-- A file is no directory, so one that was written leads nowhere new. -/
theorem keepsDirectories_of_put (h : place ≠ []) (content : List UInt8) :
    (d.put place (.file content)).KeepsDirectories d := by
  refine ⟨rfl, fun {other} hother => ?_⟩
  rw [get?_put _ _ _ h] at hother
  split at hother
  · cases hother
  · exact hother

end Put

/-! ## Trees -/

/-- Every place lies in a directory, and so does the one that paths start from. -/
def IsTree (d : Disk) : Prop :=
  d.get? d.here = some .directory ∧ ∀ e ∈ d.entries, d.get? e.1.dropLast = some .directory

instance (d : Disk) : Decidable d.IsTree := inferInstanceAs (Decidable (_ ∧ _))

namespace IsTree

theorem around (h : d.IsTree) {place : List String} (hplace : d.get? place = some .directory) :
    d.get? place.dropLast = some .directory := by
  by_cases hroot : place = []
  · rw [hroot]
    rfl
  · rw [get?, if_neg hroot, Option.map_eq_some_iff] at hplace
    obtain ⟨e, he, -⟩ := hplace
    have hkey : e.1 = place := by simpa using List.find?_some he
    rw [← hkey]
    exact h.2 e (List.mem_of_find?_eq_some he)

/-- What a path leads to is a directory, or it has the name of the last step. -/
theorem walk (h : d.IsTree) {place steps final : List String}
    (hplace : d.get? place = some .directory) (hwalk : d.walk place steps = .ok final) :
    d.get? final = some .directory ∨
      ∃ front name, final = front ++ [name] ∧ d.get? front = some .directory ∧
        steps.getLast? = some name ∧ name ≠ "." ∧ name ≠ ".." := by
  induction steps generalizing place with
  | nil =>
      cases hwalk
      exact .inl hplace
  | cons step rest ih =>
      simp only [Disk.walk, hplace] at hwalk
      split at hwalk
      · cases hwalk
      cases rest with
      | nil =>
          obtain rfl : next place step = final := Except.ok.inj hwalk
          rw [next]
          split
          · exact .inl hplace
          · split
            · exact .inl (h.around hplace)
            · next hdot hdots => exact .inr ⟨place, step, rfl, hplace, rfl, hdot, hdots⟩
      | cons step' rest' =>
          -- the walk goes on from the next place, so that is a directory
          have hnext : d.get? (next place step) = some .directory := by
            rw [Disk.walk] at hwalk
            cases hentry : d.get? (next place step) with
            | none => simp [hentry] at hwalk
            | some entry => cases entry <;> simp_all
          rw [List.getLast?_cons_cons]
          exact ih hnext hwalk

theorem locate (h : d.IsTree) {path : String} {place : List String}
    (hlocate : d.locate path = .ok place) :
    d.get? place = some .directory ∨
      ∃ front name, place = front ++ [name] ∧ d.get? front = some .directory ∧
        Path.endsInSlash path = false ∧ (Path.steps path).getLast? = some name ∧
        name ≠ "." ∧ name ≠ ".." := by
  obtain ⟨⟨⟩, -, hwalk⟩ := bind_eq_ok.mp hlocate
  have hstart : d.get? (if Path.isAbsolute path then [] else d.here) = some .directory := by
    split
    · rfl
    · exact h.1
  obtain hplace | ⟨front, name, hfinal, hfront, hlast, hdot, hdots⟩ := h.walk hstart hwalk
  · exact .inl hplace
  · cases hslash : Path.endsInSlash path with
    | true =>
        rw [hslash, if_pos rfl, List.getLast?_append] at hlast
        exact absurd (Option.some.inj hlast).symm hdot
    | false =>
        rw [hslash, if_neg (by decide), List.append_nil] at hlast
        exact .inr ⟨front, name, hfinal, hfront, rfl, hlast, hdot, hdots⟩

end IsTree

/-! ## Making directories -/

/-- Nothing was changed, except that directories were made where nothing was. -/
structure Grows (d d' : Disk) : Prop where
  here : d'.here = d.here
  get? (place : List String) :
    d'.get? place = d.get? place ∨ d.get? place = none ∧ d'.get? place = some .directory
  tree : d.IsTree → d'.IsTree

namespace Grows

theorem refl (d : Disk) : d.Grows d := ⟨rfl, fun _ => .inl rfl, id⟩

theorem trans {d'' : Disk} (h : d.Grows d') (h' : d'.Grows d'') : d.Grows d'' := by
  refine ⟨h'.here.trans h.here, fun place => ?_, h'.tree ∘ h.tree⟩
  obtain hsame | ⟨hnone, hmade⟩ := h.get? place
  · rw [← hsame]
    exact h'.get? place
  · obtain hsame' | ⟨hnone', -⟩ := h'.get? place
    · exact .inr ⟨hnone, hsame'.trans hmade⟩
    · rw [hmade] at hnone'
      cases hnone'

/-- What is not a directory now is what it was. -/
theorem get?_eq (h : d.Grows d') {place : List String} (hplace : d'.get? place ≠ some .directory) :
    d'.get? place = d.get? place :=
  (h.get? place).resolve_right fun hmade => hplace hmade.2

end Grows

/-- The two disks hold the same files at the same places. -/
def SameFiles (d d' : Disk) : Prop :=
  ∀ place content, d'.get? place = some (.file content) ↔ d.get? place = some (.file content)

theorem Grows.sameFiles (h : d.Grows d') : d.SameFiles d' := by
  intro place content
  obtain hsame | ⟨hnone, hmade⟩ := h.get? place
  · rw [hsame]
  · rw [hnone, hmade]
    simp

theorem grows_of_makeDirectory {path : String} (h : d.makeDirectory path = .ok d') :
    d.Grows d' := by
  obtain ⟨⟨⟩, -, h⟩ := bind_eq_ok.mp h
  obtain ⟨place, hlocate, h⟩ := bind_eq_ok.mp h
  cases hfree : d.get? place with
  | some entry => simp [hfree] at h
  | none =>
      simp only [hfree] at h
      obtain rfl : d.put place .directory = d' := Except.ok.inj h
      have hplace : d.get? place ≠ some .directory := by simp [hfree]
      have hroot := ne_nil_of_not_directory hplace
      refine ⟨rfl, fun other => ?_, fun htree => ⟨?_, fun e he => ?_⟩⟩
      · rw [get?_put _ _ _ hroot]
        split
        · next hsame => exact .inr ⟨hsame ▸ hfree, rfl⟩
        · exact .inl rfl
      · exact (keepsDirectories_put hplace _).directory htree.1
      · refine (keepsDirectories_put hplace _).directory ?_
        rcases List.mem_cons.mp he with rfl | he
        · obtain hdirectory | ⟨front, name, rfl, hfront, -⟩ := htree.locate hlocate
          · exact absurd hdirectory hplace
          · rw [List.dropLast_concat, hfront]
        · exact htree.2 e (List.mem_filter.mp he).1

/-- The program does nothing to a disk but make directories. -/
def OnlyMakes {β : Type} (x : ExceptT Failure (StateM Disk) β) : Prop :=
  ∀ d : Disk, d.Grows (x.run.run d).2

namespace OnlyMakes

variable {β γ : Type}

theorem pure (b : β) : OnlyMakes (Pure.pure b) := fun d => .refl d

theorem throw (e : Failure) : OnlyMakes (MonadExcept.throw e : ExceptT Failure (StateM Disk) β) :=
  fun d => .refl d

theorem bind {x : ExceptT Failure (StateM Disk) β} {f : β → ExceptT Failure (StateM Disk) γ}
    (hx : OnlyMakes x) (hf : ∀ b, OnlyMakes (f b)) : OnlyMakes (x >>= f) := by
  intro d
  have hfirst := hx d
  cases h : x.run.run d with
  | mk outcome between =>
      rw [h] at hfirst
      cases outcome with
      | error e =>
          rw [run_bind_of_error f h]
          exact hfirst
      | ok b =>
          rw [run_bind_of_ok f h]
          exact hfirst.trans (hf b between)

theorem attempt {x : ExceptT Failure (StateM Disk) β} (hx : OnlyMakes x) :
    OnlyMakes (Files.attempt x) := hx

theorem isDirectory (path : String) :
    OnlyMakes (ExceptT.lift (Files.isDirectory path : StateM Disk Bool)) := fun d => .refl d

theorem makeDirectory (path : String) : OnlyMakes (Files.makeDirectory path) := by
  intro d
  show d.Grows ((Disk.change (·.makeDirectory path)).run.run d).2
  rw [run_change]
  cases h : d.makeDirectory path with
  | error e => exact .refl d
  | ok d' => exact grows_of_makeDirectory h

theorem acceptDirectory (path : String) (made : Outcome Unit) :
    OnlyMakes (Files.acceptDirectory path made) := by
  cases made with
  | ok => exact .pure ()
  | error e =>
      refine (isDirectory path).bind fun there => ?_
      cases there with
      | true => exact .pure ()
      | false => exact .throw e

theorem makeWithin (path : String) (around : List String) :
    OnlyMakes (Files.makeWithin path around) := by
  induction around generalizing path with
  | nil => exact (makeDirectory path).attempt.bind fun made => acceptDirectory path made
  | cons around further ih =>
      refine (makeDirectory path).attempt.bind fun made => ?_
      split
      · exact (ih around).bind fun _ =>
          (makeDirectory path).attempt.bind fun made => acceptDirectory path made
      · exact acceptDirectory path _

theorem makeParent (path : String) : OnlyMakes (Files.makeParent path) := by
  rw [Files.makeParent]
  split
  · rw [Files.makeDirectories]
    split
    · exact .pure ()
    · exact .makeWithin _ _
  · exact .pure ()

end OnlyMakes

end Disk

end ShardedModel
