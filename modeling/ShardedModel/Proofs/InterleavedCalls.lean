import ShardedModel.Proofs.CallHistory

/-!
# Calls at the same time

Calls that share a coordinator ask it for graphs in three steps each: look, prepare and count,
enter. Between two steps of one call there may be any steps of others, so two calls can both
find nothing and both prepare the graph that is missing. What holds then is decided by the
third step alone. It looks again, and a call that comes second takes what the first has left.

Two calls that prepare the same graph make equal graphs but two objects, and agreement is about
objects. So every call marks the graphs that it prepares, with a mark that may be different
for every call, and the statements hold whatever the marks are: a call returns the object
that is kept, which may be that of another call.

The counter of prepared graphs goes up in the second step, before anything is known of the
third. It therefore counts preparations, and the entries are as many as the numbers of
candidates among them.
-/

namespace ShardedModel

open Outcome

variable {α : Type}

@[simp] theorem Coordinator.prepared_countPrepared (c : Coordinator α) :
    c.countPrepared.prepared = c.prepared := rfl

@[simp] theorem Coordinator.prepare_countPrepared (c : Coordinator α) (k : Nat) :
    c.countPrepared.prepare k = c.prepare k := rfl

theorem Prepared.graph_of_prepare {graph : Graph} {params : Parameters α} {p : Prepared α}
    (h : prepare graph params = .ok p) : p.graph = graph := by
  obtain ⟨_, -, h⟩ := bind_eq_ok.mp h
  obtain ⟨_, -, h⟩ := bind_eq_ok.mp h
  obtain ⟨_, -, h⟩ := bind_eq_ok.mp h
  cases h
  rfl

/-- How far a call for a graph has come. -/
inductive CallStage (α : Type) where
  | waiting
  | missed
  | holding (own : Prepared α)
  | found (entry : Prepared α)
  | entered (entry : Prepared α)
  | refused (failure : Failure)

namespace CallStage

/-- What a call that has ended returned. -/
def returned : CallStage α → Option (Outcome (Prepared α))
  | .found entry | .entered entry => some (.ok entry)
  | .refused failure => some (.error failure)
  | _ => none

/-- The call has prepared a graph of its own. -/
def hasPrepared : CallStage α → Bool
  | .holding _ | .entered _ => true
  | _ => false

/-- The next step of a call for `k` candidates. -/
def next (mark : Prepared α → Prepared α) (k : Nat) (c : Coordinator α) :
    CallStage α → CallStage α × Coordinator α
  | .waiting =>
      match c.lookup k with
      | some entry => (.found entry, c)
      | none => (.missed, c)
  | .missed =>
      match c.prepare k with
      | .ok new => (.holding (mark new), c.countPrepared)
      | .error failure => (.refused failure, c)
  | .holding own =>
      let (entry, c) := c.enter k own
      (.entered entry, c)
  | stage => (stage, c)

/-- What a step can do, with what it has seen. -/
inductive Moves (mark : Prepared α → Prepared α) (k : Nat) (c : Coordinator α) :
    CallStage α → CallStage α → Coordinator α → Prop where
  | finds {entry : Prepared α} (h : c.lookup k = some entry) :
      Moves mark k c .waiting (.found entry) c
  | misses (h : c.lookup k = none) : Moves mark k c .waiting .missed c
  | prepares {new : Prepared α} (h : c.prepare k = .ok new) :
      Moves mark k c .missed (.holding (mark new)) c.countPrepared
  | refuses {failure : Failure} (h : c.prepare k = .error failure) :
      Moves mark k c .missed (.refused failure) c
  | joins {own entry : Prepared α} (h : c.lookup k = some entry) :
      Moves mark k c (.holding own) (.entered entry) c
  | enters {own : Prepared α} (h : c.lookup k = none) :
      Moves mark k c (.holding own) (.entered own) { c with prepared := c.prepared ++ [(k, own)] }
  | rests {stage : CallStage α} (h : stage.returned.isSome) : Moves mark k c stage stage c

theorem moves_next (mark : Prepared α → Prepared α) (k : Nat) (c : Coordinator α)
    (stage : CallStage α) :
    Moves mark k c stage (stage.next mark k c).1 (stage.next mark k c).2 := by
  cases stage with
  | waiting =>
      simp only [next]
      split
      · next h => exact .finds h
      · next h => exact .misses h
  | missed =>
      simp only [next]
      split
      · next h => exact .prepares h
      · next h => exact .refuses h
  | holding own =>
      simp only [next, Coordinator.enter]
      split
      · next h => exact .joins h
      · next h => exact .enters h
  | found entry => exact .rests rfl
  | entered entry => exact .rests rfl
  | refused failure => exact .rests rfl

end CallStage

structure GraphCall (α : Type) where
  k : Nat
  stage : CallStage α

/-- Calls and the coordinator that they share. -/
structure Traffic (α : Type) where
  coordinator : Coordinator α
  calls : List (GraphCall α)

namespace Traffic

/-- No call has made a step yet. -/
def start (c : Coordinator α) (ks : List Nat) : Traffic α := ⟨c, ks.map (⟨·, .waiting⟩)⟩

/-- One step of the call with a number, if there is one. -/
def step (mark : Nat → Prepared α → Prepared α) (s : Traffic α) (i : Nat) : Traffic α :=
  match s.calls[i]? with
  | some call =>
      let (stage, c) := call.stage.next (mark i) call.k s.coordinator
      ⟨c, s.calls.set i ⟨call.k, stage⟩⟩
  | none => s

/-- Steps of calls in the order of a schedule. -/
def run (mark : Nat → Prepared α → Prepared α) (s : Traffic α) (schedule : List Nat) :
    Traffic α :=
  schedule.foldl (step mark) s

/-- The calls that have begun have ended. -/
def Settled (s : Traffic α) : Prop :=
  ∀ call ∈ s.calls, call.stage = .waiting ∨ call.stage.returned.isSome

/-- The numbers of candidates for which calls have prepared a graph, one for each call. -/
def preparedFor (s : Traffic α) : List Nat :=
  (s.calls.filter (·.stage.hasPrepared)).map (·.k)

variable {mark : Nat → Prepared α → Prepared α}

/-- A call that has prepared a graph and has ended returned an entry. -/
theorem Settled.exists_returned {s : Traffic α} (h : s.Settled) {call : GraphCall α}
    (hcall : call ∈ s.calls) (hprepared : call.stage.hasPrepared) :
    ∃ entry, call.stage.returned = some (.ok entry) := by
  have hended := h call hcall
  generalize call.stage = stage at hprepared hended ⊢
  cases stage with
  | entered entry => exact ⟨entry, rfl⟩
  | holding own => simp [CallStage.returned] at hended
  | _ => cases hprepared

/-- What every step keeps is kept by a schedule. -/
theorem run_induction {P : Traffic α → Prop}
    (hstep : ∀ (s : Traffic α) (i : Nat) (call : GraphCall α) (stage : CallStage α)
      (c : Coordinator α), s.calls[i]? = some call →
      CallStage.Moves (mark i) call.k s.coordinator call.stage stage c → P s →
      P ⟨c, s.calls.set i ⟨call.k, stage⟩⟩)
    {s : Traffic α} (h : P s) (schedule : List Nat) : P (s.run mark schedule) := by
  induction schedule generalizing s with
  | nil => exact h
  | cons i rest ih =>
      refine ih ?_
      rw [step]
      split
      · next call hcall =>
          exact hstep s i call _ _ hcall (CallStage.moves_next (mark i) call.k _ call.stage) h
      · exact h

theorem run_append (s : Traffic α) (first more : List Nat) :
    s.run mark (first ++ more) = (s.run mark first).run mark more :=
  List.foldl_append

/-- A call that nobody interrupts gets what `preparedGraph` gives. -/
theorem run_alone (c : Coordinator α) (k : Nat) :
    let s := (start c [k]).run (fun _ p => p) [0, 0, 0]
    s.calls.map (·.stage.returned) = [some (c.preparedGraph k).1] ∧
      s.coordinator = (c.preparedGraph k).2 := by
  cases hlookup : c.lookup k with
  | some entry =>
      simp [run, step, start, CallStage.next, CallStage.returned, Coordinator.preparedGraph,
        hlookup]
  | none =>
      cases hprepare : c.prepare k with
      | error failure =>
          simp [run, step, start, CallStage.next, CallStage.returned, Coordinator.preparedGraph,
            hlookup, hprepare]
      | ok new =>
          simp [run, step, start, CallStage.next, CallStage.returned, Coordinator.preparedGraph,
            hlookup, hprepare]

/-! ## One entry for each number of candidates -/

/-- What is known of calls that began on a coordinator without entries. -/
structure Sound (mark : Nat → Prepared α → Prepared α) (c : Coordinator α) (s : Traffic α) :
    Prop where
  same : ∀ k, s.coordinator.prepare k = c.prepare k
  keys : (s.coordinator.prepared.map (·.1)).Nodup
  made : ∀ e ∈ s.coordinator.prepared, ∃ i p, c.prepare e.1 = .ok p ∧ e.2 = mark i p
  held : ∀ call ∈ s.calls, ∀ own, call.stage = .holding own →
    ∃ i p, c.prepare call.k = .ok p ∧ own = mark i p
  kept : ∀ call ∈ s.calls, ∀ entry, call.stage.returned = some (.ok entry) →
    s.coordinator.lookup call.k = some entry

namespace Sound

variable {c : Coordinator α} {s : Traffic α}

theorem begin (hempty : c.prepared = []) (ks : List Nat) : Sound mark c (start c ks) := by
  refine ⟨fun _ => rfl, ?_, ?_, ?_, ?_⟩ <;> simp [start, hempty, CallStage.returned]

/-- A step of a call that changes no entry. -/
theorem advance (h : Sound mark c s) {d : Coordinator α} {i k : Nat} {stage : CallStage α}
    (hprepare : ∀ k, d.prepare k = s.coordinator.prepare k)
    (hprepared : d.prepared = s.coordinator.prepared)
    (hheld : ∀ own, stage = .holding own → ∃ i p, c.prepare k = .ok p ∧ own = mark i p)
    (hkept : ∀ entry, stage.returned = some (.ok entry) → s.coordinator.lookup k = some entry) :
    Sound mark c ⟨d, s.calls.set i ⟨k, stage⟩⟩ := by
  refine ⟨fun k => (hprepare k).trans (h.same k), ?_, ?_, ?_, ?_⟩
  · rw [hprepared]
    exact h.keys
  · rw [hprepared]
    exact h.made
  · intro b hb own hown
    rcases List.mem_or_eq_of_mem_set hb with hb | rfl
    · exact h.held b hb own hown
    · exact hheld own hown
  · intro b hb entry hentry
    rw [Coordinator.lookup, hprepared]
    rcases List.mem_or_eq_of_mem_set hb with hb | rfl
    · exact h.kept b hb entry hentry
    · exact hkept entry hentry

/-- A number of candidates that has no entry gets one. -/
theorem enter (h : Sound mark c s) {i k : Nat} {own : Prepared α}
    (hnone : s.coordinator.lookup k = none)
    (hown : ∃ i p, c.prepare k = .ok p ∧ own = mark i p) :
    Sound mark c ⟨{ s.coordinator with prepared := s.coordinator.prepared ++ [(k, own)] },
      s.calls.set i ⟨k, .entered own⟩⟩ := by
  have hfresh : k ∉ s.coordinator.prepared.map (·.1) := by
    intro hin
    have hsome := (Coordinator.Caches.isSome_lookup s.coordinator k).mpr hin
    simp [hnone] at hsome
  refine ⟨h.same, ?_, ?_, ?_, ?_⟩
  · show ((s.coordinator.prepared ++ [(k, own)]).map (·.1)).Nodup
    rw [List.map_append, List.map_singleton]
    exact List.nodup_append'.mpr ⟨h.keys, by simp, by simpa using hfresh⟩
  · intro e he
    rcases List.mem_append.mp he with he | he
    · exact h.made e he
    · rw [List.mem_singleton.mp he]
      exact hown
  · intro b hb held hheld
    rcases List.mem_or_eq_of_mem_set hb with hb | rfl
    · exact h.held b hb held hheld
    · cases hheld
  · intro b hb entry hentry
    rw [Coordinator.lookup, List.lookup_append]
    rcases List.mem_or_eq_of_mem_set hb with hb | rfl
    · have hkept := h.kept b hb entry hentry
      rw [Coordinator.lookup] at hkept
      simp [hkept]
    · rw [Coordinator.lookup] at hnone
      cases hentry
      simp [hnone]

theorem run (h : Sound mark c s) (schedule : List Nat) : Sound mark c (s.run mark schedule) := by
  refine run_induction (fun s i call stage d hcall hmove hs => ?_) h schedule
  have hmem := List.mem_of_getElem? hcall
  generalize hstage : call.stage = before at hmove
  cases hmove with
  | finds hlookup =>
      exact hs.advance (fun _ => rfl) rfl (by simp) (by simpa [CallStage.returned] using hlookup)
  | misses => exact hs.advance (fun _ => rfl) rfl (by simp) (by simp [CallStage.returned])
  | prepares hprepare =>
      rw [hs.same] at hprepare
      refine hs.advance (fun _ => rfl) rfl ?_ (by simp [CallStage.returned])
      intro own hown
      exact ⟨i, _, hprepare, (CallStage.holding.inj hown).symm⟩
  | refuses => exact hs.advance (fun _ => rfl) rfl (by simp) (by simp [CallStage.returned])
  | joins hlookup =>
      exact hs.advance (fun _ => rfl) rfl (by simp) (by simpa [CallStage.returned] using hlookup)
  | enters hlookup => exact hs.enter hlookup (hs.held call hmem _ hstage)
  | rests =>
      refine hs.advance (fun _ => rfl) rfl ?_ ?_
      · intro own hown
        exact hs.held call hmem own (hstage.trans hown)
      · intro entry hentry
        exact hs.kept call hmem entry (hstage ▸ hentry)

end Sound

/-- Entries are added behind those that are there. -/
theorem prepared_prefix_run (s : Traffic α) (schedule : List Nat) :
    s.coordinator.prepared <+: (s.run mark schedule).coordinator.prepared := by
  refine run_induction (P := fun t => s.coordinator.prepared <+: t.coordinator.prepared)
    (fun t i call stage d _ hmove ht => ?_) (List.prefix_refl _) schedule
  generalize call.stage = before at hmove
  cases hmove with
  | enters => exact ht.trans (List.prefix_append _ _)
  | _ => exact ht

/-! ## What the counter counts -/

theorem mem_preparedFor {s : Traffic α} {k : Nat} :
    k ∈ s.preparedFor ↔ ∃ call ∈ s.calls, call.stage.hasPrepared ∧ call.k = k := by
  simp [preparedFor, and_assoc]

theorem length_preparedFor (s : Traffic α) :
    s.preparedFor.length = s.calls.countP (·.stage.hasPrepared) := by
  rw [preparedFor, List.length_map, List.countP_eq_length_filter]

/-- What is counted and for what there are entries, after calls that began on a coordinator
without entries. -/
structure Counted (c : Coordinator α) (s : Traffic α) : Prop where
  counter : s.coordinator.statistics.graphsPrepared =
    (c.statistics.graphsPrepared + s.preparedFor.length) % Word.limit
  covered : ∀ e ∈ s.coordinator.prepared, e.1 ∈ s.preparedFor

namespace Counted

variable {c : Coordinator α} {s : Traffic α}

theorem begin (hempty : c.prepared = []) (hword : c.statistics.graphsPrepared < Word.limit)
    (ks : List Nat) : Counted c (start c ks) := by
  have hnone : (start c ks).preparedFor = [] := by simp [preparedFor, start, CallStage.hasPrepared]
  refine ⟨?_, by simp [start, hempty]⟩
  rw [hnone]
  exact (Nat.mod_eq_of_lt hword).symm

/-- A call that goes on keeps what it has prepared. -/
theorem mem_preparedFor_set {i k : Nat} {call : GraphCall α} {stage : CallStage α}
    {d : Coordinator α} (hcall : s.calls[i]? = some call)
    (hkeeps : call.stage.hasPrepared → stage.hasPrepared) (h : k ∈ s.preparedFor) :
    k ∈ preparedFor ⟨d, s.calls.set i ⟨call.k, stage⟩⟩ := by
  obtain ⟨b, hb, hprepared, hk⟩ := mem_preparedFor.mp h
  obtain ⟨j, hj⟩ := List.mem_iff_getElem?.mp hb
  by_cases hij : i = j
  · subst hij
    obtain rfl : call = b := Option.some.inj (hcall.symm.trans hj)
    have hlt := (List.getElem?_eq_some_iff.mp hj).1
    exact mem_preparedFor.mpr ⟨⟨call.k, stage⟩, List.mem_set hlt _, hkeeps hprepared, hk⟩
  · have hj' : (s.calls.set i ⟨call.k, stage⟩)[j]? = some b := by
      rw [List.getElem?_set, if_neg hij]
      exact hj
    exact mem_preparedFor.mpr ⟨b, List.mem_of_getElem? hj', hprepared, hk⟩

theorem length_preparedFor_set {i : Nat} {call : GraphCall α} {stage : CallStage α}
    {d : Coordinator α} (hcall : s.calls[i]? = some call)
    (hkeeps : call.stage.hasPrepared → stage.hasPrepared) :
    (preparedFor ⟨d, s.calls.set i ⟨call.k, stage⟩⟩).length =
      s.preparedFor.length + if call.stage.hasPrepared = stage.hasPrepared then 0 else 1 := by
  obtain ⟨hlt, hget⟩ := List.getElem?_eq_some_iff.mp hcall
  rw [length_preparedFor, length_preparedFor, List.countP_set hlt, hget]
  cases hbefore : call.stage.hasPrepared with
  | false => cases stage.hasPrepared <;> simp
  | true =>
      have hpos : 0 < s.calls.countP (·.stage.hasPrepared) :=
        List.countP_pos_iff.mpr ⟨call, List.mem_of_getElem? hcall, hbefore⟩
      simp [hkeeps hbefore]
      omega

/-- A step that prepares counts, and an entry is made only by a call that has prepared. -/
theorem advance (h : Counted c s) {i : Nat} {call : GraphCall α} {stage : CallStage α}
    {d : Coordinator α} (hcall : s.calls[i]? = some call)
    (hkeeps : call.stage.hasPrepared → stage.hasPrepared)
    (hcounter : d.statistics.graphsPrepared =
      if call.stage.hasPrepared = stage.hasPrepared then s.coordinator.statistics.graphsPrepared
      else (s.coordinator.statistics.graphsPrepared + 1) % Word.limit)
    (hprepared : ∀ e ∈ d.prepared, e ∈ s.coordinator.prepared ∨ e.1 = call.k ∧ stage.hasPrepared) :
    Counted c ⟨d, s.calls.set i ⟨call.k, stage⟩⟩ := by
  refine ⟨?_, ?_⟩
  · rw [hcounter, length_preparedFor_set hcall hkeeps, h.counter]
    split
    · rw [Nat.add_zero]
    · rw [Nat.mod_add_mod, Nat.add_assoc]
  · intro e he
    rcases hprepared e he with he | ⟨hk, hstage⟩
    · exact mem_preparedFor_set hcall hkeeps (h.covered e he)
    · have hlt := (List.getElem?_eq_some_iff.mp hcall).1
      exact mem_preparedFor.mpr ⟨⟨call.k, stage⟩, List.mem_set hlt _, hstage, hk.symm⟩

theorem run (h : Counted c s) (schedule : List Nat) : Counted c (s.run mark schedule) := by
  refine run_induction (fun s i call stage d hcall hmove hs => ?_) h schedule
  obtain ⟨k, before⟩ := call
  dsimp only at hmove
  cases hmove with
  | enters =>
      refine hs.advance hcall (fun _ => rfl) rfl fun e he => ?_
      rcases List.mem_append.mp he with he | he
      · exact .inl he
      · rw [List.mem_singleton.mp he]
        exact .inr ⟨rfl, rfl⟩
  | rests => exact hs.advance hcall (fun h => h) (by simp) fun e he => .inl he
  | finds | misses | refuses =>
      exact hs.advance hcall (by simp [CallStage.hasPrepared]) rfl fun e he => .inl he
  | prepares | joins => exact hs.advance hcall (fun _ => rfl) rfl fun e he => .inl he

end Counted

/-! ## Any interleaving -/

theorem calls_run (s : Traffic α) (schedule : List Nat) :
    (s.run mark schedule).calls.map (·.k) = s.calls.map (·.k) := by
  refine run_induction (P := fun t => t.calls.map (·.k) = s.calls.map (·.k))
    (fun t i call stage d hcall _ ht => ?_) rfl schedule
  have hcall' : (t.calls.map (·.k))[i]? = some call.k := by simp [hcall]
  obtain ⟨hlt, hget⟩ := List.getElem?_eq_some_iff.mp hcall'
  rw [← ht, List.map_set, ← hget, List.set_getElem_self]

/-- A call that finds nothing and is alone. -/
theorem run_first (mark : Nat → Prepared α → Prepared α) {c : Coordinator α} {k : Nat}
    {p : Prepared α} (hempty : c.prepared = []) (hp : c.prepare k = .ok p) :
    (start c [k]).run mark [0, 0, 0] =
      ⟨{ c.countPrepared with prepared := [(k, mark 0 p)] }, [⟨k, .entered (mark 0 p)⟩]⟩ := by
  simp [run, step, start, CallStage.next, Coordinator.enter, Coordinator.lookup, hempty, hp]

/-- Two calls that both find nothing: the second to enter returns the graph of the first. -/
theorem run_race (mark : Nat → Prepared α → Prepared α) {c : Coordinator α} {k : Nat}
    {p : Prepared α} (hempty : c.prepared = []) (hp : c.prepare k = .ok p) :
    (start c [k, k]).run mark [0, 1, 0, 1, 1, 0] =
      ⟨{ c.countPrepared.countPrepared with prepared := [(k, mark 1 p)] },
        [⟨k, .entered (mark 1 p)⟩, ⟨k, .entered (mark 1 p)⟩]⟩ := by
  simp [run, step, start, CallStage.next, Coordinator.enter, Coordinator.lookup, hempty, hp]

/-- At every moment there is one entry for each number of candidates, entries stay, and calls
for the same number return the same entry, which holds the graph that is built for it. -/
theorem calls_share_entries {plan : Plan} {params : Parameters α} {options : CallOptions}
    {new : Coordinator α} (hnew : Coordinator.create plan params options = .ok new)
    (mark : Nat → Prepared α → Prepared α) (hmark : ∀ i p, (mark i p).graph = p.graph)
    (ks first more : List Nat) :
    let before := (start new ks).run mark first
    let after := before.run mark more
    (after.coordinator.prepared.map (·.1)).Nodup ∧
    before.coordinator.prepared <+: after.coordinator.prepared ∧
    after.calls.map (·.k) = ks ∧
    ∀ call ∈ after.calls, ∀ entry, call.stage.returned = some (.ok entry) →
      (call.k, entry) ∈ after.coordinator.prepared ∧
      Graph.build plan ⟨call.k, options.coalesce⟩ = .ok entry.graph ∧
      ∀ other ∈ after.calls, other.k = call.k →
        ∀ entry', other.stage.returned = some (.ok entry') → entry' = entry := by
  intro before after
  obtain ⟨_, -, hcreate⟩ := bind_eq_ok.mp hnew
  cases hcreate
  have hsound : Sound mark _ after := ((Sound.begin rfl ks).run first).run more
  refine ⟨hsound.keys, prepared_prefix_run before more, ?_, fun call hcall entry hentry => ?_⟩
  · rw [calls_run, calls_run]
    simp [start, Function.comp_def]
  · have hlookup := hsound.kept call hcall entry hentry
    obtain ⟨before, behind, hsplit, -⟩ := List.lookup_eq_some_iff.mp hlookup
    have hmem : (call.k, entry) ∈ after.coordinator.prepared := by
      rw [hsplit]
      simp
    refine ⟨hmem, ?_, fun other hother hk entry' hentry' => ?_⟩
    · obtain ⟨i, p, hp, hentry⟩ := hsound.made _ hmem
      obtain ⟨g, hg, hprepare⟩ := bind_eq_ok.mp hp
      rw [show entry.graph = g from ?_]
      · exact hg
      · rw [show entry = mark i p from hentry, hmark, Prepared.graph_of_prepare hprepare]
    · have hlookup' := hsound.kept other hother entry' hentry'
      rw [hk, hlookup] at hlookup'
      exact (Option.some.inj hlookup').symm

/-- Marks that tell the graphs of calls apart. -/
def numbered (i : Nat) (p : Prepared α) : Prepared α :=
  { p with waves := p.waves ++ List.replicate i [] }

/-- A new coordinator for five ids in two shards can prepare a graph for two candidates. -/
theorem exists_uneven : ∃ plan new p, Plan.cut 5 2 = .ok plan ∧
    Coordinator.create plan unevenParams .standard = .ok new ∧ new.prepared = [] ∧
    new.statistics = .zero ∧ new.prepare 2 = .ok p := by
  have hplan : Plan.cut 5 2 = .ok ⟨5, [⟨0, 0, 2, 2, 5⟩, ⟨1, 2, 5, 2, 5⟩]⟩ := by cbv
  have hparams : unevenParams.validate ⟨5, [⟨0, 0, 2, 2, 5⟩, ⟨1, 2, 5, 2, 5⟩]⟩ = .ok () := by cbv
  have hover : Coordinator.Over ⟨⟨5, [⟨0, 0, 2, 2, 5⟩, ⟨1, 2, 5, 2, 5⟩]⟩, unevenParams, .standard,
      ⟨30000, false⟩, .zero, []⟩ 5 2 := ⟨Plan.cutOf_of_cut hplan, hparams, rfl⟩
  obtain ⟨p, hp, -⟩ := hover.exists_prepared (k := 2) ⟨by decide, by decide⟩
  refine ⟨_, _, p, hplan, ?_, rfl, rfl, hp⟩
  rw [Coordinator.create, hparams]
  rfl

/-- Two calls that prepared two graphs return one of them. -/
theorem calls_share_entries_raced :
    ∃ plan new p, Plan.cut 5 2 = .ok plan ∧
      Coordinator.create plan unevenParams .standard = .ok new ∧ new.prepare 2 = .ok p ∧
      numbered 0 p ≠ numbered 1 p ∧
      let before := (start new [2, 2]).run numbered [0, 1, 0, 1, 1]
      let after := before.run numbered [0]
      (after.coordinator.prepared.map (·.1)).Nodup ∧
      before.coordinator.prepared <+: after.coordinator.prepared ∧
      after.calls.map (·.stage.returned) =
        [some (.ok (numbered 1 p)), some (.ok (numbered 1 p))] ∧
      Graph.build plan ⟨2, true⟩ = .ok (numbered 1 p).graph := by
  obtain ⟨plan, new, p, hplan, hnew, hempty, -, hp⟩ := exists_uneven
  obtain ⟨hkeys, hprefix, -, hcalls⟩ :=
    calls_share_entries hnew numbered (fun _ _ => rfl) [2, 2] [0, 1, 0, 1, 1] [0]
  have hrace : ((start new [2, 2]).run numbered [0, 1, 0, 1, 1]).run numbered [0] = _ :=
    (run_append _ _ _).symm.trans (run_race numbered hempty hp)
  rw [hrace] at hcalls
  refine ⟨plan, new, p, hplan, hnew, hp, ?_, hkeys, hprefix, ?_, ?_⟩
  · simp [numbered]
  · rw [hrace]
    rfl
  · exact (hcalls ⟨2, .entered (numbered 1 p)⟩ (by simp) (numbered 1 p) rfl).2.1

/-- Once all calls have ended, the counter has gone up by one for each call that prepared a
graph, and there is one entry for each number of candidates among them. The two agree only if
nothing had been counted before and no two calls prepared for the same number. -/
theorem graphsPrepared_of_settled {c : Coordinator α} (hempty : c.prepared = [])
    (hword : c.statistics.graphsPrepared < Word.limit)
    (mark : Nat → Prepared α → Prepared α) (ks schedule : List Nat)
    (hsettled : ((start c ks).run mark schedule).Settled) :
    let s := (start c ks).run mark schedule
    s.coordinator.statistics.graphsPrepared =
      (c.statistics.graphsPrepared + s.preparedFor.length) % Word.limit ∧
    s.coordinator.prepared.length = s.preparedFor.toFinset.card ∧
    (c.statistics.graphsPrepared + s.preparedFor.length < Word.limit →
      (s.coordinator.statistics.graphsPrepared = s.coordinator.prepared.length ↔
        c.statistics.graphsPrepared = 0 ∧ s.preparedFor.Nodup)) := by
  intro s
  have hsound : Sound mark c s := (Sound.begin hempty ks).run schedule
  have hcounted : Counted c s := (Counted.begin hempty hword ks).run schedule
  have hkeys : (s.coordinator.prepared.map (·.1)).toFinset = s.preparedFor.toFinset := by
    ext k
    rw [List.mem_toFinset, List.mem_toFinset, ← Coordinator.Caches.isSome_lookup]
    constructor
    · intro hsome
      obtain ⟨e, he, rfl⟩ := List.mem_map.mp ((Coordinator.Caches.isSome_lookup _ k).mp hsome)
      exact hcounted.covered e he
    · intro hk
      obtain ⟨call, hcall, hprepared, rfl⟩ := mem_preparedFor.mp hk
      obtain ⟨entry, hentry⟩ := hsettled.exists_returned hcall hprepared
      rw [hsound.kept call hcall entry hentry]
      rfl
  have hcard : s.coordinator.prepared.length = s.preparedFor.toFinset.card := by
    rw [← hkeys, List.toFinset_card_of_nodup hsound.keys, List.length_map]
  refine ⟨hcounted.counter, hcard, fun hlt => ?_⟩
  have hle := List.toFinset_card_le s.preparedFor
  have hnodup : s.preparedFor.toFinset.card = s.preparedFor.length ↔ s.preparedFor.Nodup :=
    Multiset.toFinset_card_eq_card_iff_nodup
  rw [hcounted.counter, Nat.mod_eq_of_lt hlt, hcard, ← hnodup]
  omega

/-- Two calls at the same time count twice for one entry. After a change of the executor the
count goes on, while the entries begin anew. -/
theorem graphsPrepared_of_settled_raced :
    ∃ plan new, Plan.cut 5 2 = .ok plan ∧
      Coordinator.create plan unevenParams .standard = .ok new ∧
      let s := (start new [2, 2]).run numbered [0, 1, 0, 1, 1, 0]
      s.Settled ∧ s.coordinator.statistics.graphsPrepared = 2 ∧ s.coordinator.prepared.length = 1 ∧
      let later := (start (s.coordinator.withExecutor .standard) [2]).run numbered [0, 0, 0]
      later.Settled ∧ later.coordinator.statistics.graphsPrepared = 3 ∧
      later.coordinator.prepared.length = 1 := by
  obtain ⟨plan, new, p, hplan, hnew, hempty, hzero, hp⟩ := exists_uneven
  have hrace := run_race numbered hempty hp
  have hsettled : ((start new [2, 2]).run numbered [0, 1, 0, 1, 1, 0]).Settled := by
    rw [hrace]
    simp [Settled, CallStage.returned]
  obtain ⟨hcounter, hlength, -⟩ := graphsPrepared_of_settled hempty (by rw [hzero]; decide)
    numbered [2, 2] [0, 1, 0, 1, 1, 0] hsettled
  rw [hrace] at hsettled hcounter hlength
  rw [hzero] at hcounter
  refine ⟨plan, new, hplan, hnew, ?_⟩
  rw [hrace]
  refine ⟨hsettled, hcounter, hlength, ?_⟩
  generalize hc : Coordinator.withExecutor
    { new.countPrepared.countPrepared with prepared := [(2, numbered 1 p)] } .standard = c
  have hcount : c.statistics.graphsPrepared = 2 := by
    rw [← hc]
    exact hcounter
  have hempty' : c.prepared = [] := by
    rw [← hc]
    rfl
  have hlater := run_first numbered (c := c) (k := 2) (p := p) hempty' (hc ▸ hp)
  have hsettled' : ((start c [2]).run numbered [0, 0, 0]).Settled := by
    rw [hlater]
    simp [Settled, CallStage.returned]
  obtain ⟨hcounter', hlength', -⟩ := graphsPrepared_of_settled hempty' (by rw [hcount]; decide)
    numbered [2] [0, 0, 0] hsettled'
  refine ⟨hsettled', ?_, ?_⟩
  · rw [hcounter', hlater, hcount]
    rfl
  · rw [hlength', hlater]
    rfl

end Traffic

end ShardedModel
