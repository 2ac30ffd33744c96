import Mathlib.Data.List.TakeDrop
import ShardedModel.Proofs.DiskRuns
import ShardedModel.Proofs.Text

/-!
# Replacing a file by way of a draft

A file is replaced in two moves: the new content goes to a draft beside it, and the draft takes the
file's name. What that needs of a disk is said by `Disk.Takes`, and where it holds the replacement
succeeds whatever the content is. If there is no content to write, nothing has happened except that
the directories around the file were made.

That no draft is left behind is a matter of names. The draft's name is that of the file with
another extension, and a file never has that name itself, because the extension of the draft has a
dot in it and no extension of a file does.
-/

namespace ShardedModel

open Outcome

/-! ## The name at the end of a path -/

namespace Path

/-- The text ends in a name, after a slash if there is more. -/
def EndsIn (text name : List Char) : Prop :=
  '/' ∉ name ∧ (text = name ∨ ∃ front, text = front ++ '/' :: name)

theorem exists_endsIn (text : List Char) : ∃ name, EndsIn text name := by
  induction text with
  | nil => exact ⟨[], List.not_mem_nil, .inl rfl⟩
  | cons c rest ih =>
      obtain ⟨name, hslash, rfl | ⟨front, rfl⟩⟩ := ih
      · by_cases hc : c = '/'
        · exact ⟨rest, hslash, .inr ⟨[], by rw [hc]; rfl⟩⟩
        · exact ⟨c :: rest, by simp [hslash, Ne.symm hc], .inl rfl⟩
      · exact ⟨name, hslash, .inr ⟨c :: front, rfl⟩⟩

theorem EndsIn.pieces {text name : List Char} (h : EndsIn text name) :
    ∃ front, Text.pieces '/' text = front ++ [name] := by
  obtain ⟨hslash, rfl | ⟨front, rfl⟩⟩ := h
  · exact ⟨[], Text.pieces_of_not_mem hslash⟩
  · exact ⟨Text.pieces '/' front, by rw [Text.pieces_append, Text.pieces_of_not_mem hslash]⟩

theorem EndsIn.unique {text name other : List Char} (h : EndsIn text name)
    (h' : EndsIn text other) : name = other := by
  obtain ⟨front, hfront⟩ := h.pieces
  obtain ⟨front', hfront'⟩ := h'.pieces
  exact (List.append_singleton_inj.mp (hfront.symm.trans hfront')).2

theorem EndsIn.of_cons {text name : List Char} (h : EndsIn ('/' :: text) name) :
    EndsIn text name := by
  obtain ⟨hslash, rfl | ⟨front, hfront⟩⟩ := h
  · exact absurd List.mem_cons_self hslash
  · cases front with
    | nil => exact ⟨hslash, .inl (List.cons.inj hfront).2⟩
    | cons c front => exact ⟨hslash, .inr ⟨front, (List.cons.inj hfront).2⟩⟩

theorem EndsIn.names {path : String} {name : List Char} (h : EndsIn path.toList name) :
    ∃ front, (ofText path).names = front ++ [String.ofList name] := by
  rw [ofText]
  split
  · next habsolute =>
      cases htext : path.toList with
      | nil => simp [isAbsolute, htext] at habsolute
      | cons c rest =>
          obtain rfl : c = '/' := by simpa [isAbsolute, htext] using habsolute
          rw [htext] at h
          obtain ⟨front, hfront⟩ := h.of_cons.pieces
          exact ⟨front.map String.ofList, by simp [hfront]⟩
  · obtain ⟨front, hfront⟩ := h.pieces
    exact ⟨front.map String.ofList, by simp [hfront]⟩

/-- A path that does not end in a slash ends in its last step. -/
theorem endsIn_of_steps {path name : String} (hslash : endsInSlash path = false)
    (hlast : (steps path).getLast? = some name) : EndsIn path.toList name.toList := by
  obtain ⟨last, h⟩ := exists_endsIn path.toList
  obtain ⟨front, hnames⟩ := h.names
  have hne : last ≠ [] := by
    rintro rfl
    obtain ⟨-, htext | ⟨front, htext⟩⟩ := h
    · rw [steps, ofText, isAbsolute, htext] at hlast
      simp [Text.pieces] at hlast
    · simp [endsInSlash, htext] at hslash
  have hkept : String.ofList last ≠ "" := fun hempty => hne (by simpa using hempty)
  rw [steps, hnames, List.filter_append] at hlast
  obtain rfl : String.ofList last = name := by simpa [hkept] using hlast
  rwa [String.toList_ofList]

theorem endsIn_text {p : Path} {front : List String} {name : List Char}
    (hnames : p.names = front ++ [String.ofList name]) (hslash : '/' ∉ name) :
    EndsIn p.text.toList name := by
  refine ⟨hslash, ?_⟩
  rw [text, hnames, String.toList_append]
  by_cases hfront : front = []
  · rw [hfront, List.nil_append, String.intercalate_singleton, String.toList_ofList]
    split
    · exact .inr ⟨[], rfl⟩
    · exact .inl rfl
  · rw [String.intercalate_append_of_ne_nil hfront (by simp), String.intercalate_singleton]
    refine .inr ⟨(if p.absolute then "/" else "").toList ++ ("/".intercalate front).toList, ?_⟩
    simp

theorem last?_of_names {p : Path} {front : List String} {name : String}
    (hnames : p.names = front ++ [name]) (hidle : isIdle name = false) :
    ∃ before, p.last? = some (name, before) := by
  have hbody : ∃ before, p.body = before ++ [name] := by
    rw [body, lead, hnames]
    split
    · next hlead =>
        cases front with
        | nil => simp_all [isIdle]
        | cons first front => exact ⟨front, rfl⟩
    · exact ⟨front, rfl⟩
  obtain ⟨before, hbody⟩ := hbody
  refine ⟨before, ?_⟩
  rw [last?, hbody, List.reverse_append, List.reverse_singleton, List.singleton_append,
    List.dropWhile_cons_of_neg (by simp [hidle])]
  simp

/-! ## Extensions -/

theorem splitName_of_dot {stem extension : List Char} (hdot : '.' ∉ extension)
    (hstem : stem ≠ []) :
    splitName (String.ofList (stem ++ '.' :: extension)) =
      (String.ofList stem, some (String.ofList extension)) := by
  have hspan : (stem ++ '.' :: extension).reverse.span (· ≠ '.') =
      (extension.reverse, '.' :: stem.reverse) := by
    rw [List.span_eq_takeWhile_dropWhile]
    have hpass : ∀ c ∈ extension.reverse, decide (c ≠ '.') = true := by
      intro c hc
      have hne : c ≠ '.' := by
        rintro rfl
        exact hdot (List.mem_reverse.mp hc)
      simpa using hne
    rw [List.reverse_append, List.reverse_cons, List.append_assoc,
      List.takeWhile_append_of_pos hpass, List.dropWhile_append_of_pos hpass]
    simp
  rw [splitName, String.toList_ofList, hspan]
  simp [hstem]

/-- A name has no extension, or a last dot that is not at its beginning. -/
theorem splitName_cases (name : List Char) :
    splitName (String.ofList name) = (String.ofList name, none) ∨
      ∃ stem extension, name = stem ++ '.' :: extension ∧ '.' ∉ extension ∧ stem ≠ [] := by
  rw [splitName, String.toList_ofList, List.span_eq_takeWhile_dropWhile]
  have hsplit :=
    List.takeWhile_append_dropWhile (p := fun c => decide (c ≠ '.')) (l := name.reverse)
  have hpass : ∀ c ∈ name.reverse.takeWhile (· ≠ '.'), c ≠ '.' := by
    intro c hc
    simpa using List.all_eq_true.mp List.all_takeWhile c hc
  cases hrest : name.reverse.dropWhile (· ≠ '.') with
  | nil => exact .inl rfl
  | cons c before =>
      dsimp only
      by_cases hbefore : before = []
      · exact .inl (by simp [hbefore])
      · have hdot : c = '.' := by
          have h := List.head?_dropWhile_not (fun c => decide (c ≠ '.')) name.reverse
          rw [hrest] at h
          simpa using h
        refine .inr ⟨before.reverse, (name.reverse.takeWhile (· ≠ '.')).reverse, ?_, ?_, ?_⟩
        · rw [hrest, hdot] at hsplit
          have h := congrArg List.reverse hsplit
          simpa using h.symm
        · intro hmem
          exact hpass '.' (List.mem_reverse.mp hmem) rfl
        · simpa using hbefore

theorem setExtension_of_last {p : Path} {name : String} {before : List String}
    (hlast : p.last? = some (name, before)) (hdots : name ≠ "..") (extension : String) :
    (p.setExtension extension).names =
      p.lead ++ before ++ [(splitName name).1 ++ "." ++ extension] := by
  rw [setExtension, hlast]
  split
  · next heq => exact absurd (Prod.mk.inj (Option.some.inj heq)).1 hdots
  · next heq => cases heq
  · next heq =>
      cases heq
      rfl

theorem extensionLength_of_last {p : Path} {name : String} {before : List String}
    (hlast : p.last? = some (name, before)) (hdots : name ≠ "..") :
    p.extensionLength = ((splitName name).2.map String.length).getD 0 := by
  rw [extensionLength, hlast]
  split
  · next heq => exact absurd (Prod.mk.inj (Option.some.inj heq)).1 hdots
  · next heq => cases heq
  · next heq =>
      cases heq
      rfl

theorem endsIn_setExtension {p : Path} {front : List String} {name : List Char}
    (hnames : p.names = front ++ [String.ofList name]) (hidle : isIdle (String.ofList name) = false)
    (hdots : String.ofList name ≠ "..") {stem : List Char}
    (hstem : (splitName (String.ofList name)).1 = String.ofList stem) (hslash : '/' ∉ stem)
    {extension : String} (hext : '/' ∉ extension.toList) :
    EndsIn (p.setExtension extension).text.toList (stem ++ '.' :: extension.toList) := by
  obtain ⟨before, hlast⟩ := last?_of_names hnames hidle
  have hnew : (p.setExtension extension).names =
      (p.lead ++ before) ++ [String.ofList (stem ++ '.' :: extension.toList)] := by
    rw [setExtension_of_last hlast hdots, hstem]
    simp [String.append_assoc]
  exact endsIn_text hnew (by simp [hslash, hext])

/-- The draft of a file has the name of the file with another extension. Of a name that is all dots
before its extension, two dots are left. -/
theorem endsIn_withExtension {path : String} {name : List Char} (h : EndsIn path.toList name)
    (hidle : isIdle (String.ofList name) = false) (hdots : String.ofList name ≠ "..")
    {extension : String} (hext : '/' ∉ extension.toList) :
    EndsIn (withExtension path extension).toList ['.', '.'] ∨
      ∃ stem, EndsIn (withExtension path extension).toList (stem ++ '.' :: extension.toList) ∧
        (name = stem ∨ ∃ old, name = stem ++ '.' :: old ∧ '.' ∉ old) := by
  obtain ⟨front, hnames⟩ := h.names
  obtain ⟨before, hlast⟩ := last?_of_names hnames hidle
  have hlength := extensionLength_of_last hlast hdots
  obtain hwhole | ⟨stem, old, rfl, hold, hstem⟩ := splitName_cases name
  · refine .inr ⟨name, ?_, .inl rfl⟩
    have hkept : String.ofList (path.toList.take (path.length - (ofText path).extensionLength)) =
        path := by
      rw [hlength, hwhole, ← String.length_toList]
      simp
    rw [withExtension, hkept]
    exact endsIn_setExtension hnames hidle hdots (by rw [hwhole]) h.1 hext
  · -- the old extension is cut off the text, and its dot stays
    have hcut : ∀ base, path.toList = base ++ old →
        path.toList.take (path.length - (ofText path).extensionLength) = base := by
      intro base hbase
      rw [hlength, splitName_of_dot hold hstem, ← String.length_toList, hbase]
      simp
    have hkept : EndsIn (path.toList.take (path.length - (ofText path).extensionLength))
        (stem ++ ['.']) := by
      obtain ⟨hslash, htext | ⟨front, htext⟩⟩ := h
      · refine ⟨by simp_all, .inl (hcut _ ?_)⟩
        rw [htext]
        simp
      · refine ⟨by simp_all, .inr ⟨front, hcut _ ?_⟩⟩
        rw [htext]
        simp
    rw [← String.toList_ofList (l := List.take _ _)] at hkept
    obtain ⟨keptFront, hkeptNames⟩ := hkept.names
    rw [withExtension]
    by_cases hdotStem : stem = ['.']
    · subst hdotStem
      refine .inl ?_
      obtain ⟨before, hlast⟩ := last?_of_names hkeptNames (by decide)
      rw [setExtension, hlast]
      exact endsIn_text hkeptNames (by decide)
    · refine .inr ⟨stem, ?_, .inr ⟨old, rfl, hold⟩⟩
      have hne : ∀ {text : String}, stem ++ ['.'] ≠ text.toList →
          String.ofList (stem ++ ['.']) ≠ text :=
        fun hchars htext => hchars (by rw [← htext, String.toList_ofList])
      refine endsIn_setExtension hkeptNames ?_ ?_ ?_ ?_ hext
      · have hempty : String.ofList (stem ++ ['.']) ≠ "" := hne (by simp)
        have hdot : String.ofList (stem ++ ['.']) ≠ "." := hne (by simpa using hstem)
        simp only [isIdle, hempty, hdot, decide_false, Bool.or_self]
      · refine hne fun heq => hdotStem ?_
        exact List.append_inj_left' (heq : stem ++ ['.'] = ['.'] ++ ['.']) rfl
      · rw [splitName_of_dot (by simp) hstem]
      · exact fun hslash => hkept.1 (List.mem_append_left _ hslash)

/-- Where the extension of the draft has a dot in it, the draft does not have the name of the
file. -/
theorem exists_endsIn_withExtension {path : String} {name : List Char}
    (h : EndsIn path.toList name) (hidle : isIdle (String.ofList name) = false)
    (hdots : String.ofList name ≠ "..") {extension : String} (hext : '/' ∉ extension.toList)
    (hdot : '.' ∈ extension.toList) :
    ∃ other, EndsIn (withExtension path extension).toList other ∧
      (other = ['.', '.'] ∨ other ≠ name) := by
  obtain hends | ⟨stem, hends, rfl | ⟨old, rfl, hold⟩⟩ := endsIn_withExtension h hidle hdots hext
  · exact ⟨_, hends, .inl rfl⟩
  · exact ⟨_, hends, .inr (by simp)⟩
  · refine ⟨_, hends, .inr fun heq => hold ?_⟩
    rw [← (List.cons.inj (List.append_cancel_left heq)).2]
    exact hdot

end Path

/-! ## Operations on files -/

namespace Disk

variable {d d' : Disk} {path : String} {content : List UInt8}

theorem read_eq_ok :
    d.read path = .ok content ↔
      ∃ place, d.locate path = .ok place ∧ d.get? place = some (.file content) := by
  rw [read, bind_eq_ok]
  refine exists_congr fun place => and_congr_right fun _ => ?_
  cases d.get? place with
  | none => simp
  | some entry => cases entry <;> simp

theorem write_eq_ok :
    d.write path content = .ok d' ↔
      ∃ place, d.locate path = .ok place ∧ d.get? place ≠ some .directory ∧
        d' = d.put place (.file content) := by
  rw [write, bind_eq_ok]
  refine exists_congr fun place => and_congr_right fun _ => ?_
  cases d.get? place with
  | none => simp [eq_comm]
  | some entry => cases entry <;> simp [eq_comm]

theorem move_eq_ok {source target : String} :
    d.move source target = .ok d' ↔
      ∃ content old new, d.locate source = .ok old ∧ d.get? old = some (.file content) ∧
        d.locate target = .ok new ∧ d.get? new ≠ some .directory ∧
        d' = (d.remove old).put new (.file content) := by
  constructor
  · intro h
    obtain ⟨content, hread, h⟩ := bind_eq_ok.mp h
    obtain ⟨old, hold, h⟩ := bind_eq_ok.mp h
    obtain ⟨new, hnew, h⟩ := bind_eq_ok.mp h
    obtain ⟨place, hplace, hcontent⟩ := read_eq_ok.mp hread
    obtain rfl : place = old := Except.ok.inj (hplace.symm.trans hold)
    refine ⟨content, place, new, hold, hcontent, hnew, ?_⟩
    split at h
    · cases h
    · next hfree => exact ⟨hfree, (Except.ok.inj h).symm⟩
  · rintro ⟨content, old, new, hold, hcontent, hnew, hfree, rfl⟩
    rw [move, read_eq_ok.mpr ⟨old, hold, hcontent⟩, ok_bind, hold, ok_bind, hnew, ok_bind]
    split
    · next hdirectory => exact absurd hdirectory hfree
    · rfl

/-! ## The replacement -/

/-- What replacing a file needs of a disk: when the directories around the file are made, its path
and that of its draft lead to places where no directory is. -/
structure Takes (d : Disk) (path extension : String) (ready : Disk) (draft target : List String) :
    Prop where
  parent : (Files.makeParent path : ExceptT Failure (StateM Disk) Unit).run.run d = (.ok (), ready)
  draft_at : ready.locate (Path.withExtension path extension) = .ok draft
  draft_free : ready.get? draft ≠ some .directory
  target_at : ready.locate path = .ok target
  target_free : ready.get? target ≠ some .directory

/-- The disk on which the draft was written and has taken the place of the file. -/
def replaced (ready : Disk) (draft target : List String) (content : List UInt8) : Disk :=
  ((ready.put draft (.file content)).remove draft).put target (.file content)

section Replaced

variable {ready : Disk} {draft target : List String}

theorem keepsDirectories_replaced (hdraft : ready.get? draft ≠ some .directory)
    (htarget : ready.get? target ≠ some .directory) (content : List UInt8) :
    ready.KeepsDirectories (ready.replaced draft target content) := by
  have hroot := ne_nil_of_not_directory hdraft
  have hput := keepsDirectories_put hdraft (.file content)
  have hwritten : (ready.put draft (.file content)).get? draft ≠ some .directory := by
    rw [get?_put _ _ _ hroot, if_pos rfl]
    simp
  refine (hput.trans (keepsDirectories_remove hwritten)).trans (keepsDirectories_put ?_ _)
  rw [get?_remove _ _ hroot, get?_put _ _ _ hroot]
  split
  · simp
  · exact htarget

theorem get?_replaced (hdraft : draft ≠ []) (htarget : target ≠ []) (content : List UInt8)
    (place : List String) :
    (ready.replaced draft target content).get? place =
      if place = target then some (.file content)
      else if place = draft then none else ready.get? place := by
  rw [replaced, get?_put _ _ _ htarget, get?_remove _ _ hdraft, get?_put _ _ _ hdraft]
  split
  · rfl
  · split
    · rfl
    · rfl

end Replaced

namespace Takes

variable {extension : String} {ready : Disk} {draft target : List String}

theorem grows (h : d.Takes path extension ready draft target) : d.Grows ready := by
  have hmakes := OnlyMakes.makeParent path d
  rwa [h.parent] at hmakes

theorem run_ok (h : d.Takes path extension ready draft target) (content : List UInt8) :
    (Files.replaceFile path extension (.ok content) :
      ExceptT Failure (StateM Disk) Unit).run.run d =
        (.ok (), ready.replaced draft target content) := by
  have hroot := ne_nil_of_not_directory h.draft_free
  have hput := keepsDirectories_put h.draft_free (.file content)
  refine run_bind_eq_ok.mpr ⟨(), ready, h.parent, ?_⟩
  refine run_bind_eq_ok.mpr ⟨content, ready, run_liftExcept _ _, ?_⟩
  refine run_bind_eq_ok.mpr ⟨(), ready.put draft (.file content), ?_, ?_⟩
  · exact run_change_eq_ok.mpr (write_eq_ok.mpr ⟨draft, h.draft_at, h.draft_free, rfl⟩)
  · refine run_change_eq_ok.mpr (move_eq_ok.mpr ⟨content, draft, target, hput.locate h.draft_at,
      ?_, hput.locate h.target_at, ?_, rfl⟩)
    · rw [get?_put _ _ _ hroot, if_pos rfl]
    · rw [get?_put _ _ _ hroot]
      split
      · simp
      · exact h.target_free

theorem run_error (h : d.Takes path extension ready draft target) (e : Failure) :
    (Files.replaceFile path extension (.error e) :
      ExceptT Failure (StateM Disk) Unit).run.run d = (.error e, ready) := by
  rw [Files.replaceFile, run_bind_of_ok _ h.parent]
  exact run_bind_of_error _ (run_liftExcept _ _)

theorem read_replaced (h : d.Takes path extension ready draft target) (content : List UInt8) :
    (ready.replaced draft target content).read path = .ok content := by
  have hkeeps := keepsDirectories_replaced h.draft_free h.target_free content
  refine read_eq_ok.mpr ⟨target, hkeeps.locate h.target_at, ?_⟩
  rw [get?_replaced (ne_nil_of_not_directory h.draft_free) (ne_nil_of_not_directory h.target_free),
    if_pos rfl]

/-- On a tree, draft and file are at different places. -/
theorem draft_ne (h : d.Takes path extension ready draft target) (htree : d.IsTree)
    (hslash : '/' ∉ extension.toList) (hdot : '.' ∈ extension.toList) : draft ≠ target := by
  have hready := h.grows.tree htree
  obtain hdirectory | ⟨front, name, htarget, -, hends, hlast, hne, hdots⟩ :=
    hready.locate h.target_at
  · exact absurd hdirectory h.target_free
  obtain hdirectory | ⟨front', name', hdraft, -, hends', hlast', -, hdots'⟩ :=
    hready.locate h.draft_at
  · exact absurd hdirectory h.draft_free
  have hempty : name ≠ "" := by simpa using (List.mem_filter.mp (List.mem_of_getLast? hlast)).2
  obtain ⟨other, hother, hdiffers⟩ := Path.exists_endsIn_withExtension
    (Path.endsIn_of_steps hends hlast) (by simp [Path.isIdle, hempty, hne])
    (by rwa [String.ofList_toList]) hslash hdot
  rw [hother.unique (Path.endsIn_of_steps hends' hlast')] at hdiffers
  rintro rfl
  obtain rfl := (List.append_singleton_inj.mp (hdraft.symm.trans htarget)).2
  obtain hdifferent | hdifferent := hdiffers
  · exact hdots' (String.toList_inj.mp hdifferent)
  · exact hdifferent rfl

/-- No draft is left behind. -/
theorem find?_draft (h : d.Takes path extension ready draft target) (hne : draft ≠ target)
    (content : List UInt8) :
    (ready.replaced draft target content).find? (Path.withExtension path extension) = none := by
  have hkeeps := keepsDirectories_replaced h.draft_free h.target_free content
  rw [find?, hkeeps.locate h.draft_at]
  dsimp only
  rw [get?_replaced (ne_nil_of_not_directory h.draft_free) (ne_nil_of_not_directory h.target_free),
    if_neg hne, if_pos rfl]

end Takes

/-- A replacement succeeds only on a disk that takes it, so whether it does is not a matter of the
content. -/
theorem replaceFile_eq_ok {extension : String} :
    (Files.replaceFile path extension (.ok content) :
      ExceptT Failure (StateM Disk) Unit).run.run d = (.ok (), d') ↔
      ∃ ready draft target, d.Takes path extension ready draft target ∧
        d' = ready.replaced draft target content := by
  constructor
  · intro h
    obtain ⟨⟨⟩, ready, hparent, h⟩ := run_bind_eq_ok.mp h
    obtain ⟨written, between, hlift, h⟩ := run_bind_eq_ok.mp h
    rw [run_liftExcept] at hlift
    cases hlift
    obtain ⟨⟨⟩, after, hwrite, hmove⟩ := run_bind_eq_ok.mp h
    obtain ⟨draft, hdraft, hfree, rfl⟩ := write_eq_ok.mp (run_change_eq_ok.mp hwrite)
    obtain ⟨moved, old, target, hold, hmoved, htarget, htargetFree, rfl⟩ :=
      move_eq_ok.mp (run_change_eq_ok.mp hmove)
    have hroot := ne_nil_of_not_directory hfree
    have hput := keepsDirectories_put hfree (.file content)
    obtain rfl : draft = old := Except.ok.inj ((hput.locate hdraft).symm.trans hold)
    rw [get?_put _ _ _ hroot, if_pos rfl] at hmoved
    cases hmoved
    refine ⟨ready, draft, target, ⟨hparent, hdraft, hfree,
      (keepsDirectories_of_put hroot content).locate htarget, fun hdirectory => ?_⟩, rfl⟩
    exact htargetFree (hput.directory hdirectory)
  · rintro ⟨ready, draft, target, htakes, rfl⟩
    exact htakes.run_ok content

end Disk

end ShardedModel
