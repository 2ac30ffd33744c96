import ShardedModel.Proofs.FileReplacement
import ShardedModel.Proofs.TomlLines
import ShardedModel.Settings.Store

/-!
# Settings files are read as they were written

A settings file is four tables, and `document` spells them out line by line. Here the same file is a
list of tables of scalars (`tables`), so that what holds of one entry is proved once: its line is
read as the key with the value that the scalar stands for. The reader then only has to put lines
into tables, and it can because no name occurs twice. Names are the same in every file but for the
parameter path, which may be absent, so that what is needed of them is decided on two lists
(`names`).

A save that goes wrong does so while the settings are encoded, before anything is written. All that
it can leave behind are directories around the file.
-/

namespace ShardedModel

open Outcome

namespace Settings

/-! ## The document -/

/-- A value of a setting. -/
inductive Scalar where
  | count (n : Nat)
  | switch (b : Bool)
  | text (s : String)

namespace Scalar

def written : Scalar → List Char
  | .count n => (toString n).toList
  | .switch b => if b then "true".toList else "false".toList
  | .text s => Toml.quoted s.toList

def value : Scalar → Toml.Value
  | .count n => .integer n
  | .switch b => .boolean b
  | .text s => .string s

def Fits : Scalar → Prop
  | .count n => n ≤ Numeral.largestSigned
  | _ => True

theorem readsAs {x : Scalar} (h : x.Fits) : Toml.ReadsAs x.written x.value := by
  cases x with
  | count n => exact Toml.readsAs_count h
  | switch b => exact Toml.readsAs_switch b
  | text s => exact Toml.readsAs_text s

end Scalar

/-- The groups of settings with their names, in the order of the file. -/
def tables (s : Settings) : List (String × List (String × Scalar)) :=
  [("model", [("vocab_size", .count s.model.vocabSize),
      ("embedding_dim", .count s.model.embeddingDim), ("seq_len", .count s.model.seqLen),
      ("seed", .count s.model.seed)] ++
        s.model.paramsPath.toList.map fun path => ("params_path", .text path)),
    ("sharding", [("shard_count", .count s.sharding.shardCount),
      ("top_k", .count s.sharding.topK)]),
    ("executor", [("timeout_ms", .count s.executor.timeoutMs),
      ("coalesce_copies", .switch s.executor.coalesceCopies)]),
    ("logging", [("level", .text s.logging.level), ("log_to_file", .switch s.logging.logToFile),
      ("log_dir", .text s.logging.logDir)])]

def tableText (t : String × List (String × Scalar)) : List Char :=
  headerLine t.1 ++ t.2.flatMap fun e => entryLine e.1 e.2.written

theorem document_eq (s : Settings) :
    s.document = ['\n'].intercalate (s.tables.map tableText) := by
  delta document
  cases hpath : s.model.paramsPath with
  | none =>
      simp only [tables, tableText, hpath, countLine, switchLine, textLine,
        Scalar.written, List.map_cons, List.map_nil, List.flatMap_cons, List.flatMap_nil,
        List.append_assoc, List.cons_append, List.nil_append, List.append_nil, Option.toList_none,
        List.intercalate_cons_cons, List.intercalate_singleton]
  | some path =>
      simp only [tables, tableText, hpath, countLine, switchLine, textLine,
        Scalar.written, List.map_cons, List.map_nil, List.flatMap_cons, List.flatMap_nil,
        List.append_assoc, List.cons_append, List.nil_append, List.append_nil, Option.toList_some,
        List.intercalate_cons_cons, List.intercalate_singleton]

/-- A group with the values that its settings are read as. -/
def valued (t : String × List (String × Scalar)) : String × List (String × Toml.Value) :=
  (t.1, t.2.map fun e => (e.1, e.2.value))

theorem writes_tableText {t : String × List (String × Scalar)} (hname : Toml.IsBare t.1)
    (hentries : ∀ e ∈ t.2, Toml.IsBare e.1 ∧ e.2.Fits) :
    Toml.Writes (tableText t) (Toml.tableLines (valued t)) := by
  have hpairs : ∀ entries : List (String × Scalar), (∀ e ∈ entries, Toml.IsBare e.1 ∧ e.2.Fits) →
      Toml.Writes (entries.flatMap fun e => entryLine e.1 e.2.written)
        (entries.map fun e => .pair [e.1] e.2.value) := by
    intro entries hentries
    induction entries with
    | nil => exact .nil
    | cons e entries ih =>
        obtain ⟨hkey, hfits⟩ := hentries e List.mem_cons_self
        exact (Toml.Writes.entry hkey (Scalar.readsAs hfits)).append
          (ih fun f hf => hentries f (List.mem_cons_of_mem _ hf))
  have hlines : Toml.tableLines (valued t) =
      [.header [t.1]] ++ t.2.map fun e => .pair [e.1] e.2.value := by
    simp [Toml.tableLines, valued]
  rw [hlines]
  exact (Toml.Writes.header hname).append (hpairs t.2 hentries)

theorem writes_tables {tables : List (String × List (String × Scalar))}
    (htables : ∀ t ∈ tables, Toml.IsBare t.1 ∧ ∀ e ∈ t.2, Toml.IsBare e.1 ∧ e.2.Fits) :
    Toml.Writes (['\n'].intercalate (tables.map tableText))
      ((tables.map valued).flatMap Toml.tableLines) := by
  induction tables with
  | nil => exact .nil
  | cons t tables ih =>
      obtain ⟨hname, hentries⟩ := htables t List.mem_cons_self
      have htext := writes_tableText hname hentries
      have hmore := ih fun u hu => htables u (List.mem_cons_of_mem _ hu)
      cases tables with
      | nil => simpa using htext
      | cons u tables =>
          rw [List.map_cons, List.map_cons, List.intercalate_cons_cons, List.map_cons,
            List.flatMap_cons]
          have hlines := (htext.append .blank).append hmore
          rwa [List.append_nil] at hlines

/-- The names in a settings file, with or without a parameter path. -/
def names (withPath : Bool) : List (String × List String) :=
  [("model", ["vocab_size", "embedding_dim", "seq_len", "seed"] ++
      if withPath then ["params_path"] else []),
    ("sharding", ["shard_count", "top_k"]), ("executor", ["timeout_ms", "coalesce_copies"]),
    ("logging", ["level", "log_to_file", "log_dir"])]

theorem names_tables (s : Settings) :
    s.tables.map (fun t => (t.1, t.2.map (·.1))) = names s.model.paramsPath.isSome := by
  cases hpath : s.model.paramsPath <;> simp [tables, names, hpath]

theorem mem_names {s : Settings} {t : String × List (String × Scalar)} (ht : t ∈ s.tables) :
    (t.1, t.2.map (·.1)) ∈ names s.model.paramsPath.isSome := by
  rw [← names_tables]
  exact List.mem_map_of_mem ht

theorem names_bare : ∀ withPath, ∀ table ∈ names withPath,
    Toml.IsBare table.1 ∧ (∀ key ∈ table.2, Toml.IsBare key) ∧ table.2.Nodup := by
  decide

theorem names_nodup : ∀ withPath, ((names withPath).map (·.1)).Nodup := by
  decide

theorem fits_tables {s : Settings} (h : ∀ n ∈ s.counts, n ≤ Numeral.largestSigned) :
    ∀ t ∈ s.tables, ∀ e ∈ t.2, e.2.Fits := by
  simp only [counts, List.forall_mem_cons] at h
  simp only [tables, List.forall_mem_cons, List.forall_mem_append, List.mem_map,
    List.not_mem_nil, forall_exists_index, and_imp]
  simp [Scalar.Fits, h]

/-- The document is read as a table for each group, with the values of its settings. -/
theorem read?_document {s : Settings} (h : ∀ n ∈ s.counts, n ≤ Numeral.largestSigned) :
    Toml.read? s.document = some (s.tables.map fun t => (t.1, .table .header (valued t).2)) := by
  have hwrites : Toml.Writes s.document ((s.tables.map valued).flatMap Toml.tableLines) := by
    rw [document_eq]
    refine writes_tables fun t ht => ?_
    obtain ⟨hname, hkeys, -⟩ := names_bare _ _ (mem_names ht)
    exact ⟨hname, fun e he => ⟨hkeys e.1 (List.mem_map_of_mem he), fits_tables h t ht e he⟩⟩
  have hassemble : Toml.assemble? ((s.tables.map valued).flatMap Toml.tableLines) =
      some ((s.tables.map valued).map fun t => (t.1, .table .header t.2)) := by
    refine Toml.assemble?_tableLines ?_ fun t ht => ?_
    · have hnames := congrArg (List.map (·.1)) (names_tables s)
      rw [List.map_map] at hnames ⊢
      have hnodup := names_nodup s.model.paramsPath.isSome
      rw [← hnames] at hnodup
      exact hnodup
    · obtain ⟨u, hu, rfl⟩ := List.mem_map.mp ht
      have hnodup := (names_bare _ _ (mem_names hu)).2.2
      simpa [valued, Function.comp_def] using hnodup
  have hmark : Toml.withoutMark s.document = s.document := by
    obtain ⟨rest, hrest⟩ : ∃ rest, s.document = '[' :: rest := by
      rw [document_eq]
      exact ⟨_, rfl⟩
    rw [hrest]
    rfl
  rw [Toml.read?, hmark, hwrites.whole]
  rw [List.map_map] at hassemble
  exact hassemble

@[simp] theorem count?_integer (n : Nat) : count? (.integer n) = some n := by
  simp [count?]

theorem ofTable?_tables (s : Settings) :
    ofTable? (s.tables.map fun t => (t.1, .table .header (valued t).2)) = some s := by
  obtain ⟨⟨vocabSize, embeddingDim, seqLen, seed, paramsPath⟩, sharding, executor, logging⟩ := s
  cases paramsPath <;>
    simp [tables, valued, Scalar.value, ofTable?, model?, sharding?, executor?, logging?, group?,
      switch?, text?, List.lookup_cons]

theorem decode_encode {s : Settings} {writer : Toml.Writer} {content : List UInt8}
    (h : s.encode writer = .ok content) : decode content = .ok s := by
  obtain ⟨⟨⟩, hcounts, h⟩ := bind_eq_ok.mp h
  obtain ⟨⟨⟩, -, h⟩ := bind_eq_ok.mp h
  obtain rfl := Except.ok.inj h
  rw [decode, fromUTF8?_toUTF8]
  dsimp only
  rw [String.toList_ofList, read?_document (ensure_eq_ok.mp hcounts), Option.bind_some,
    ofTable?_tables]

/-! ## Settings on a disk -/

theorem exists_encode {s : Settings} {writer : Toml.Writer}
    (hcounts : ∀ n ∈ s.counts, n ≤ Numeral.largestSigned) (htexts : writer.WritesAll s.texts) :
    ∃ content, s.encode writer = .ok content := by
  rw [encode, ensure_of hcounts, ok_bind, ensure_of htexts, ok_bind]
  exact ⟨_, rfl⟩

theorem encode_of_large {s : Settings} {writer : Toml.Writer}
    (hcounts : ∃ n ∈ s.counts, Numeral.largestSigned < n) :
    s.encode writer = .error (.format .integerTooLarge) := by
  obtain ⟨n, hn, hlarge⟩ := hcounts
  rw [encode, ensure_of_not fun h => Nat.not_le.mpr hlarge (h n hn)]
  rfl

theorem encode_of_unwritten {s : Settings} {writer : Toml.Writer}
    (hcounts : ∀ n ∈ s.counts, n ≤ Numeral.largestSigned)
    (htexts : ¬ writer.WritesAll s.texts) : s.encode writer = .error .fault := by
  rw [encode, ensure_of hcounts, ok_bind, ensure_of_not htexts]
  rfl

/-- Where a disk takes the file, settings without too large a number are saved if the writer writes
their texts, no draft is left, and loading gives them back or says what is wrong with them. Other
settings are refused, and files are what they were, in particular at the place of the file and at
that of the draft. -/
theorem save_outcomes {d ready : Disk} {path : String} {draft target : List String}
    (htree : d.IsTree) (htakes : d.Takes path "toml.tmp" ready draft target)
    (writer : Toml.Writer) (s : Settings) :
    ((∀ n ∈ s.counts, n ≤ Numeral.largestSigned) → writer.WritesAll s.texts →
      ∃ d', (s.save path writer : ExceptT Failure (StateM Disk) Unit).run.run d = (.ok (), d') ∧
        d'.find? (Path.withExtension path "toml.tmp") = none ∧
        (load path : ExceptT Failure (StateM Disk) Settings).run.run d' =
          (s.validate.map fun _ => s, d')) ∧
    ((∃ n ∈ s.counts, Numeral.largestSigned < n) →
      (s.save path writer : ExceptT Failure (StateM Disk) Unit).run.run d =
        (.error (.format .integerTooLarge), ready)) ∧
    ((∀ n ∈ s.counts, n ≤ Numeral.largestSigned) → ¬ writer.WritesAll s.texts →
      (s.save path writer : ExceptT Failure (StateM Disk) Unit).run.run d =
        (.error .fault, ready)) ∧
    d.SameFiles ready ∧ ready.get? target = d.get? target ∧ ready.get? draft = d.get? draft := by
  refine ⟨fun hcounts htexts => ?_, fun hcounts => ?_, fun hcounts htexts => ?_,
    htakes.grows.sameFiles, htakes.grows.get?_eq htakes.target_free,
    htakes.grows.get?_eq htakes.draft_free⟩
  · obtain ⟨content, hencode⟩ := exists_encode hcounts htexts
    have hne := htakes.draft_ne htree (by decide) (by decide)
    refine ⟨ready.replaced draft target content, ?_, htakes.find?_draft hne content, ?_⟩
    · rw [save, hencode]
      exact htakes.run_ok content
    · exact run_checked (htakes.read_replaced content) (decode_encode hencode)
  · rw [save, encode_of_large hcounts]
    exact htakes.run_error _
  · rw [save, encode_of_unwritten hcounts htexts]
    exact htakes.run_error _

/-- The standard settings with another directory for log files. -/
def loggingTo (logDir : String) : Settings :=
  { standard with logging := { standard.logging with logDir } }

/-- A disk with a file of settings in the directory one is in. -/
def settingsDisk : Disk := (Disk.bare ["home"]).put ["home", "c.toml"] (.file [1])

/-- A text with signs of all kinds is kept, and by a writer without limit also a row of 256 quotes,
at which the other one faults. Settings that are not usable are refused only when they are loaded,
and a number beyond the limit is refused when it is saved. -/
theorem save_outcomes_mixed :
    let save (writer : Toml.Writer) (s : Settings) : Outcome Unit × Disk :=
      (s.save "c.toml" writer : ExceptT Failure (StateM Disk) Unit).run.run settingsDisk
    let load (d : Disk) : Outcome Settings × Disk :=
      (load "c.toml" : ExceptT Failure (StateM Disk) Settings).run.run d
    let signs := loggingTo "a\"\"\"\"'''\\\n\t\x01\x7f"
    let unusable : Settings := { signs with sharding := ⟨0, 4⟩ }
    let quotes := loggingTo (String.ofList (List.replicate 256 '"'))
    settingsDisk.IsTree ∧
    settingsDisk.Takes "c.toml" "toml.tmp" settingsDisk ["home", "c.toml.tmp"] ["home", "c.toml"] ∧
    (∃ d, save .bytewise signs = (.ok (), d) ∧ d.find? "c.toml.tmp" = none ∧
      load d = (.ok signs, d)) ∧
    (∃ d, save .unbounded quotes = (.ok (), d) ∧ d.find? "c.toml.tmp" = none ∧
      load d = (.ok quotes, d)) ∧
    save .bytewise quotes = (.error .fault, settingsDisk) ∧
    (∃ d, save .unbounded unusable = (.ok (), d) ∧
      load d = (.error (.config .shardCountZero), d)) ∧
    save .unbounded { standard with sharding := ⟨2, 9223372036854775808⟩ } =
      (.error (.format .integerTooLarge), settingsDisk) := by
  intro save load signs unusable quotes
  have htree : settingsDisk.IsTree := by decide
  have htakes : settingsDisk.Takes "c.toml" "toml.tmp" settingsDisk ["home", "c.toml.tmp"]
      ["home", "c.toml"] := ⟨rfl, rfl, by decide, rfl, by decide⟩
  have hunbounded : ∀ s : Settings, Toml.Writer.unbounded.WritesAll s.texts := fun _ _ _ => rfl
  obtain ⟨d, hsave, hdraft, hload⟩ :=
    (save_outcomes htree htakes .bytewise signs).1 (by decide) (by decide +kernel)
  obtain ⟨d₁, hsave₁, hdraft₁, hload₁⟩ :=
    (save_outcomes htree htakes .unbounded quotes).1 (by decide) (hunbounded _)
  obtain ⟨d₂, hsave₂, -, hload₂⟩ :=
    (save_outcomes htree htakes .unbounded unusable).1 (by decide) (hunbounded _)
  have hvalid : signs.validate = .ok () := by decide +kernel
  have hvalid₁ : quotes.validate = .ok () := by decide +kernel
  have hinvalid : unusable.validate = .error (.config .shardCountZero) := by decide +kernel
  have hrow : ¬ Toml.Writer.bytewise.WritesAll quotes.texts := by
    intro hall
    have hwrites : Toml.Writer.bytewise.writes
        (String.ofList (List.replicate 256 '"')).toList = true :=
      hall _ (List.mem_append_right _ (.tail _ (.head _)))
    rw [String.toList_ofList] at hwrites
    exact Toml.Writer.writes_iff.mp hwrites '"' List.mem_cons_self List.infix_rfl
  rw [hvalid] at hload
  rw [hvalid₁] at hload₁
  rw [hinvalid] at hload₂
  refine ⟨htree, htakes, ⟨d, hsave, hdraft, hload⟩, ⟨d₁, hsave₁, hdraft₁, hload₁⟩, ?_,
    ⟨d₂, hsave₂, hload₂⟩, ?_⟩
  · exact (save_outcomes htree htakes .bytewise quotes).2.2.1 (by decide) hrow
  · exact (save_outcomes htree htakes .unbounded _).2.1 ⟨9223372036854775808, by decide, by decide⟩

end Settings

end ShardedModel
