import ShardedModel.Proofs.BuiltGraph
import ShardedModel.Proofs.Unsharded

/-!
# Calls one after the other

A coordinator changes with every call: it keeps the graphs that it prepared, and it counts.
None of it reaches an outcome. A graph that is found is the one that would have been
prepared, since preparing depends on nothing that changes, and so each call comes out as it
would on a coordinator that was never used.

What is kept and counted is determined by the calls. `Accounts` says how, for any number of
calls, and a call carries it on to one more. A call can fail before it has a graph or while it
runs; only in the second case is there a graph that was not there before, and in both it
counts as one failed call and nothing else.
-/

namespace ShardedModel

open Outcome

variable {α : Type}

theorem Failure.reported_ne_fault (e : Failure) : e.reported ≠ .fault := by
  unfold reported
  split
  · simp
  · assumption

/-- What is asked for in a call, and how long it takes. -/
structure InferenceCall where
  tokens : TokenBatch
  k : Nat
  ms : Nat
deriving DecidableEq, Repr

namespace Coordinator

variable [Zero α] [Add α] [Mul α] [Ord α]

/-- The outcome of a call. -/
def answer (c : Coordinator α) (call : InferenceCall) : Outcome (Prediction α) :=
  (c.infer call.tokens call.k call.ms).1

/-- The coordinator after a call. -/
def after (c : Coordinator α) (call : InferenceCall) : Coordinator α :=
  (c.infer call.tokens call.k call.ms).2

/-- Makes calls one after the other. -/
def inferAll (c : Coordinator α) :
    List InferenceCall → List (Outcome (Prediction α)) × Coordinator α
  | [] => ([], c)
  | call :: rest =>
      let (outcomes, last) := (c.after call).inferAll rest
      (c.answer call :: outcomes, last)

/-! ## One call -/

section OneCall

variable {c : Coordinator α} {k : Nat} {p : Prepared α} {e : Failure}

/-- The coordinator once it has a graph that was found or prepared. -/
def keep (c : Coordinator α) (k : Nat) (p : Prepared α) : Coordinator α :=
  if (c.lookup k).isSome then c
  else { c.countPrepared with prepared := c.prepared ++ [(k, p)] }

omit [Zero α] [Add α] [Mul α] [Ord α] in
theorem preparedGraph_of_error (h : ∀ p, c.lookup k = some p → c.prepare k = .ok p)
    (hprepare : c.prepare k = .error e) : c.preparedGraph k = (.error e, c) := by
  rw [preparedGraph]
  cases hlookup : c.lookup k with
  | some p =>
      rw [h p hlookup] at hprepare
      cases hprepare
  | none => simp [hprepare]

omit [Zero α] [Add α] [Mul α] [Ord α] in
theorem preparedGraph_of_ok (h : ∀ p, c.lookup k = some p → c.prepare k = .ok p)
    (hprepare : c.prepare k = .ok p) : c.preparedGraph k = (.ok p, c.keep k p) := by
  rw [preparedGraph, keep]
  cases hlookup : c.lookup k with
  | some old =>
      rw [h old hlookup, Except.ok.injEq] at hprepare
      simp [hprepare]
  | none =>
      have hnone : c.countPrepared.lookup k = none := hlookup
      simp [hprepare, enter, hnone]
      rfl

theorem infer_of_error (h : ∀ p, c.lookup k = some p → c.prepare k = .ok p)
    (hprepare : c.prepare k = .error e) (hfault : e ≠ .fault) (tokens : TokenBatch) (ms : Nat) :
    c.infer tokens k ms = (.error e, { c with statistics := c.statistics.recordFailure }) := by
  rw [infer, inferOn, attempt, preparedGraph_of_error h hprepare]
  cases e with
  | fault => exact absurd rfl hfault
  | _ => rfl

theorem infer_of_failing_run (h : ∀ p, c.lookup k = some p → c.prepare k = .ok p)
    (hprepare : c.prepare k = .ok p) {tokens : TokenBatch}
    (hrun : p.run c.executor tokens = .error e) (hfault : e ≠ .fault) (ms : Nat) :
    c.infer tokens k ms =
      (.error e, { c.keep k p with statistics := (c.keep k p).statistics.recordFailure }) := by
  rw [infer, inferOn, attempt, preparedGraph_of_ok h hprepare]
  dsimp only
  rw [hrun]
  cases e with
  | fault => exact absurd rfl hfault
  | _ => rfl

theorem infer_of_run (h : ∀ p, c.lookup k = some p → c.prepare k = .ok p)
    (hprepare : c.prepare k = .ok p) {tokens : TokenBatch} {r : Prediction α}
    (hrun : p.run c.executor tokens = .ok r) (ms : Nat) :
    c.infer tokens k ms = (.ok r, { c.keep k p with
      statistics := (c.keep k p).statistics.recordSuccess tokens.size p.graph.shardTaskCount
        p.graph.copyCount ms }) := by
  rw [infer, inferOn, attempt, preparedGraph_of_ok h hprepare]
  dsimp only
  rw [hrun]
  rfl

end OneCall

/-! ## What preparing gives -/

/-- A coordinator over a plan for `v` ids in `n` shards, with parameters that were checked. -/
structure Over (c : Coordinator α) (v n : Nat) : Prop where
  cut : c.plan.CutOf v n
  params : c.params.validate c.plan = .ok ()
  running : c.executor.starved = false

namespace Over

variable {c : Coordinator α} {v n k : Nat}

omit [Zero α] [Add α] [Mul α] [Ord α] in
theorem prepare_of_not_mem (h : c.Over v n) (hk : ¬ (1 ≤ k ∧ k ≤ v / n)) :
    ∃ e, e ≠ .fault ∧ c.prepare k = .error e := by
  rcases Nat.eq_zero_or_pos k with rfl | hpos
  · exact ⟨.config .zeroTopK, by simp, by rw [prepare, Graph.build_of_zero]; rfl⟩
  · have hlt : v / n < k := Nat.lt_of_not_le fun hle => hk ⟨hpos, hle⟩
    exact ⟨.emptyShard 0 (v / n) k, by simp, by rw [prepare, Graph.build_of_lt h.cut hlt]; rfl⟩

/-- The graph for a number of candidates that every shard has. -/
theorem exists_prepared (h : c.Over v n) (hk : 1 ≤ k ∧ k ≤ v / n) :
    ∃ p, c.prepare k = .ok p ∧ p.graph.shardTaskCount = 3 * n ∧
      p.graph.copyCount = Graph.builtCopies n c.options.coalesce ∧
      ∀ tokens, p.run c.executor tokens ≠ .error .fault := by
  have hready : ∀ tokens, Call.Ready ⟨c.plan, c.params, tokens, k⟩ v n := fun tokens =>
    Call.ready_of_validate h.cut h.params hk.1 hk.2
  obtain ⟨g, ws, hbuild, hws, hprepare⟩ :=
    Call.exists_prepared (hready ⟨[], 0, 0⟩) h.params c.options.coalesce
  refine ⟨⟨g, c.params, ws⟩, ?_, Graph.shardTaskCount_of_build h.cut hbuild,
    Graph.copyCount_of_build h.cut hbuild, fun tokens hfault => ?_⟩
  · rw [prepare, hbuild, ok_bind]
    exact hprepare
  · have hchain := Call.run_eq_chain (hready tokens) hbuild hws h.running
    dsimp only at hchain
    rw [hchain] at hfault
    cases hrun : Chain.run c.plan c.params tokens k with
    | ok chain =>
        rw [hrun] at hfault
        cases hfault
    | error e =>
        rw [hrun] at hfault
        exact e.reported_ne_fault (Except.error.inj hfault)

end Over

/-! ## What calls leave behind -/

/-- The graphs that a coordinator has after calls for `ks` candidates on one that was new. -/
structure Caches (new : Coordinator α) (v n : Nat) (ks : List Nat) (c : Coordinator α) :
    Prop where
  same : c = { new with statistics := c.statistics, prepared := c.prepared }
  cached : ∀ e ∈ c.prepared, new.prepare e.1 = .ok e.2
  keys : (c.prepared.map (·.1)).Nodup
  seen : ∀ k, k ∈ c.prepared.map (·.1) ↔ (1 ≤ k ∧ k ≤ v / n) ∧ k ∈ ks
  graphs : c.statistics.graphsPrepared = c.prepared.length % Word.limit

namespace Caches

variable {new c : Coordinator α} {v n k : Nat} {ks : List Nat}

omit [Zero α] [Add α] [Mul α] [Ord α]

theorem start (hnew : new.prepared = []) (hzero : new.statistics = .zero) :
    Caches new v n [] new := by
  refine ⟨rfl, ?_, ?_, ?_, ?_⟩ <;> simp [hnew, hzero, Statistics.zero]

theorem prepare_eq (h : Caches new v n ks c) (k : Nat) : c.prepare k = new.prepare k :=
  congrArg (·.prepare k) h.same

theorem executor_eq (h : Caches new v n ks c) : c.executor = new.executor :=
  congrArg (·.executor) h.same

theorem prepare_of_lookup (h : Caches new v n ks c) {p : Prepared α}
    (hlookup : c.lookup k = some p) : c.prepare k = .ok p := by
  obtain ⟨before, after, hsplit, -⟩ := List.lookup_eq_some_iff.mp hlookup
  rw [h.prepare_eq]
  exact h.cached (k, p) (by rw [hsplit]; simp)

theorem isSome_lookup (c : Coordinator α) (k : Nat) :
    (c.lookup k).isSome ↔ k ∈ c.prepared.map (·.1) := by
  simp [lookup, List.lookup_isSome_iff]

/-- Nothing is to be kept for a number that is out of range or was asked for before. -/
theorem again (h : Caches new v n ks c) (hk : 1 ≤ k ∧ k ≤ v / n → k ∈ ks) :
    Caches new v n (ks ++ [k]) c := by
  refine ⟨h.same, h.cached, h.keys, fun j => ?_, h.graphs⟩
  rw [h.seen, List.mem_append, List.mem_singleton]
  constructor
  · exact fun ⟨hj, hin⟩ => ⟨hj, .inl hin⟩
  · rintro ⟨hj, hin | rfl⟩
    · exact ⟨hj, hin⟩
    · exact ⟨hj, hk hj⟩

theorem keep (h : Caches new v n ks c) (hk : 1 ≤ k ∧ k ≤ v / n) {p : Prepared α}
    (hp : new.prepare k = .ok p) : Caches new v n (ks ++ [k]) (c.keep k p) := by
  unfold Coordinator.keep
  split
  · next hsome =>
      exact h.again fun _ => ((h.seen k).mp ((isSome_lookup c k).mp hsome)).2
  · next hnone =>
      have hfresh : k ∉ c.prepared.map (·.1) := fun hin => hnone ((isSome_lookup c k).mpr hin)
      refine ⟨?_, ?_, ?_, fun j => ?_, ?_⟩
      · exact congrArg (fun b : Coordinator α => { b with
          statistics := c.statistics.recordPrepare, prepared := c.prepared ++ [(k, p)] }) h.same
      · intro e he
        rcases List.mem_append.mp he with he | he
        · exact h.cached e he
        · rw [List.mem_singleton] at he
          subst he
          exact hp
      · show ((c.prepared ++ [(k, p)]).map (·.1)).Nodup
        rw [List.map_append, List.map_singleton, List.nodup_append]
        refine ⟨h.keys, by simp, fun a ha b hb hab => hfresh ?_⟩
        have hak : a = k := hab.trans (List.mem_singleton.mp hb)
        exact hak ▸ ha
      · show j ∈ (c.prepared ++ [(k, p)]).map (·.1) ↔ _
        rw [List.map_append, List.map_singleton, List.mem_append, List.mem_append, h.seen,
          List.mem_singleton]
        constructor
        · rintro (⟨hj, hin⟩ | rfl)
          · exact ⟨hj, .inl hin⟩
          · exact ⟨hk, .inr rfl⟩
        · rintro ⟨hj, hin | rfl⟩
          · exact .inl ⟨hj, hin⟩
          · exact .inr rfl
      · show (c.statistics.graphsPrepared + 1) % _ = (c.prepared ++ [(k, p)]).length % _
        rw [h.graphs, Nat.mod_add_mod, List.length_append, List.length_singleton]

/-- Counters of calls do not matter to the graphs. -/
theorem record (h : Caches new v n ks c) {s : Statistics}
    (hs : s.graphsPrepared = c.statistics.graphsPrepared) :
    Caches new v n ks { c with statistics := s } :=
  ⟨congrArg (fun b : Coordinator α => { b with statistics := s }) h.same, h.cached, h.keys,
    h.seen, hs.trans h.graphs⟩

theorem card_eq (h : Caches new v n ks c) :
    c.prepared.length = (ks.filter fun k => 1 ≤ k ∧ k ≤ v / n).toFinset.card := by
  have hkeys : (c.prepared.map (·.1)).toFinset =
      (ks.filter fun k => 1 ≤ k ∧ k ≤ v / n).toFinset := by
    ext k
    rw [List.mem_toFinset, List.mem_toFinset, h.seen, List.mem_filter, decide_eq_true_iff,
      and_comm]
  rw [← hkeys, List.toFinset_card_of_nodup h.keys, List.length_map]

end Caches

end Coordinator

/-- Counters after calls that were completed, each with `tasks` shard tasks and `copies` copies,
and calls that failed. -/
structure Statistics.Counts (tasks copies : Nat) (done failed : List InferenceCall)
    (s : Statistics) : Prop where
  completed : s.callsCompleted = done.length % Word.limit
  failed : s.callsFailed = failed.length % Word.limit
  tokens : s.tokensProcessed = (done.map (·.tokens.size)).sum % Word.limit
  shardTasks : s.shardTasks = tasks * done.length % Word.limit
  copies : s.copies = copies * done.length % Word.limit

namespace Statistics.Counts

variable {tasks copies : Nat} {done failed : List InferenceCall} {s : Statistics}

theorem start : Counts tasks copies [] [] .zero := by
  constructor <;> simp [zero]

theorem recordPrepare (h : Counts tasks copies done failed s) :
    Counts tasks copies done failed s.recordPrepare :=
  ⟨h.completed, h.failed, h.tokens, h.shardTasks, h.copies⟩

theorem recordFailure (h : Counts tasks copies done failed s) (call : InferenceCall) :
    Counts tasks copies done (failed ++ [call]) s.recordFailure := by
  refine ⟨h.completed, ?_, h.tokens, h.shardTasks, h.copies⟩
  simp [Statistics.recordFailure, Word.addWrapping, h.failed]

theorem recordSuccess (h : Counts tasks copies done failed s) (call : InferenceCall) :
    Counts tasks copies (done ++ [call]) failed
      (s.recordSuccess call.tokens.size tasks copies call.ms) := by
  constructor <;>
    simp [Statistics.recordSuccess, Word.addWrapping, h.completed, h.failed, h.tokens,
      h.shardTasks, h.copies, Nat.mul_add]

end Statistics.Counts

namespace Coordinator

variable [Zero α] [Add α] [Mul α] [Ord α] {new c : Coordinator α} {v n : Nat}

/-- What is known of a coordinator after calls on one that was new. -/
structure Accounts (new : Coordinator α) (v n : Nat) (calls : List InferenceCall)
    (c : Coordinator α) : Prop where
  caches : Caches new v n (calls.map (·.k)) c
  counts : c.statistics.Counts (3 * n) (Graph.builtCopies n new.options.coalesce)
    (calls.filter fun call => (new.answer call).isOk)
    (calls.filter fun call => !(new.answer call).isOk)

theorem Accounts.start (hnew : new.prepared = []) (hzero : new.statistics = .zero) :
    Accounts new v n [] new :=
  ⟨.start hnew hzero, hzero ▸ .start⟩

omit [Zero α] [Add α] [Mul α] [Ord α] in
theorem counts_keep {tasks copies : Nat} {done failed : List InferenceCall}
    (h : c.statistics.Counts tasks copies done failed) (k : Nat) (p : Prepared α) :
    (c.keep k p).statistics.Counts tasks copies done failed := by
  unfold keep
  split
  · exact h
  · exact h.recordPrepare

namespace Accounts

variable {calls : List InferenceCall} {call : InferenceCall}

/-- A call that fails counts as failed, whatever it leaves behind. -/
theorem failed {c' : Coordinator α} {e : Failure}
    (hcaches : Caches new v n ((calls ++ [call]).map (·.k)) c')
    (hcounts : c'.statistics.Counts (3 * n) (Graph.builtCopies n new.options.coalesce)
      (calls.filter fun call => (new.answer call).isOk)
      (calls.filter fun call => !(new.answer call).isOk))
    (hanswer : new.answer call = .error e) :
    Accounts new v n (calls ++ [call])
      { c' with statistics := c'.statistics.recordFailure } := by
  refine ⟨hcaches.record rfl, ?_⟩
  have hcount := hcounts.recordFailure call
  simpa [List.filter_append, hanswer, Except.isOk, Except.toBool] using hcount

/-- A call comes out as it would on the coordinator that was new, and is accounted for. -/
theorem step (h : Accounts new v n calls c) (hover : new.Over v n)
    (hstart : Accounts new v n [] new) (call : InferenceCall) :
    c.answer call = new.answer call ∧ Accounts new v n (calls ++ [call]) (c.after call) := by
  have hcached : ∀ p, c.lookup call.k = some p → c.prepare call.k = .ok p :=
    fun p hp => h.caches.prepare_of_lookup hp
  have hcached' : ∀ p, new.lookup call.k = some p → new.prepare call.k = .ok p :=
    fun p hp => hstart.caches.prepare_of_lookup hp
  have hks : (calls ++ [call]).map (·.k) = calls.map (·.k) ++ [call.k] := by simp
  rw [answer, after]
  by_cases hk : 1 ≤ call.k ∧ call.k ≤ v / n
  · obtain ⟨p, hp, htasks, hcopies, hfault⟩ := hover.exists_prepared hk
    have hp' := (h.caches.prepare_eq call.k).trans hp
    have hkept : Caches new v n ((calls ++ [call]).map (·.k)) (c.keep call.k p) :=
      hks ▸ h.caches.keep hk hp
    have hcounts := counts_keep h.counts call.k p
    cases hrun : p.run new.executor call.tokens with
    | error e =>
        have hne : e ≠ .fault := fun heq => hfault call.tokens (heq ▸ hrun)
        have hanswer : new.answer call = .error e :=
          congrArg Prod.fst (infer_of_failing_run hcached' hp hrun hne call.ms)
        rw [infer_of_failing_run hcached hp' (h.caches.executor_eq ▸ hrun) hne]
        exact ⟨hanswer.symm, failed hkept hcounts hanswer⟩
    | ok r =>
        have hanswer : new.answer call = .ok r :=
          congrArg Prod.fst (infer_of_run hcached' hp hrun call.ms)
        rw [infer_of_run hcached hp' (h.caches.executor_eq ▸ hrun), htasks, hcopies]
        refine ⟨hanswer.symm, hkept.record rfl, ?_⟩
        have hcount := hcounts.recordSuccess call
        simpa [List.filter_append, hanswer, Except.isOk, Except.toBool] using hcount
  · obtain ⟨e, hne, hp⟩ := hover.prepare_of_not_mem hk
    have hp' := (h.caches.prepare_eq call.k).trans hp
    have hanswer : new.answer call = .error e :=
      congrArg Prod.fst (infer_of_error hcached' hp hne call.tokens call.ms)
    rw [infer_of_error hcached hp' hne]
    exact ⟨hanswer.symm, failed (hks ▸ h.caches.again fun hin => absurd hin hk) h.counts hanswer⟩

/-- The same for any number of calls. -/
theorem inferAll (h : Accounts new v n calls c) (hover : new.Over v n)
    (hstart : Accounts new v n [] new) (more : List InferenceCall) :
    (c.inferAll more).1 = more.map new.answer ∧
      Accounts new v n (calls ++ more) (c.inferAll more).2 := by
  induction more generalizing c calls with
  | nil => exact ⟨rfl, by rwa [List.append_nil]⟩
  | cons call more ih =>
      obtain ⟨hanswer, hstep⟩ := h.step hover hstart call
      obtain ⟨hanswers, hmore⟩ := ih hstep
      rw [List.append_assoc] at hmore
      refine ⟨?_, hmore⟩
      show c.answer call :: ((c.after call).inferAll more).1 = _
      rw [hanswer, hanswers, List.map_cons]

end Accounts

/-- However many calls were made before, a call comes out as on a new coordinator, and the
statistics account for all calls, modulo the size of a word. -/
theorem inferAll_accounts {v n : Nat} {plan : Plan} (hplan : Plan.cut v n = .ok plan)
    {params : Parameters α} {options : CallOptions} {new : Coordinator α}
    (hnew : create plan params options = .ok new) (calls : List InferenceCall) :
    let done := calls.filter fun call => (new.answer call).isOk
    let failed := calls.filter fun call => !(new.answer call).isOk
    let statistics := (new.inferAll calls).2.statistics
    (new.inferAll calls).1 = calls.map new.answer ∧
    statistics.callsCompleted = done.length % Word.limit ∧
    statistics.callsFailed = failed.length % Word.limit ∧
    statistics.tokensProcessed = (done.map (·.tokens.size)).sum % Word.limit ∧
    statistics.shardTasks = 3 * n * done.length % Word.limit ∧
    (∀ k g, Graph.build plan ⟨k, options.coalesce⟩ = .ok g →
      statistics.copies = g.copyCount * done.length % Word.limit) ∧
    statistics.graphsPrepared = ((calls.map (·.k)).filter fun k =>
      1 ≤ k ∧ k ≤ v / n).toFinset.card % Word.limit := by
  intro done failed statistics
  obtain ⟨_, hparams, hcreate⟩ := bind_eq_ok.mp hnew
  cases hcreate
  have hcut := Plan.cutOf_of_cut hplan
  have hstart : Accounts ⟨plan, params, options, ⟨options.timeoutMs, false⟩, .zero, []⟩ v n []
      ⟨plan, params, options, ⟨options.timeoutMs, false⟩, .zero, []⟩ := .start rfl rfl
  obtain ⟨hanswers, haccounts⟩ := hstart.inferAll ⟨hcut, hparams, rfl⟩ hstart calls
  rw [List.nil_append] at haccounts
  have hcounts := haccounts.counts
  refine ⟨hanswers, hcounts.completed, hcounts.failed, hcounts.tokens, hcounts.shardTasks,
    fun k g hbuild => ?_, ?_⟩
  · rw [Graph.copyCount_of_build hcut hbuild]
    exact hcounts.copies
  · rw [← haccounts.caches.card_eq]
    exact haccounts.caches.graphs

/-- Two calls that succeed with the same graph, and three that fail: one while it runs, one that
asks for too many candidates, and one that asks for none. -/
def mixedCalls : List InferenceCall :=
  [⟨⟨[4, -3, 9, 1], 2, 2⟩, 2, 7⟩, ⟨⟨[4, -3, 9], 2, 2⟩, 1, 5⟩, ⟨⟨[4, -3], 1, 2⟩, 3, 0⟩,
    ⟨⟨[0, 2], 1, 2⟩, 2, 3⟩, ⟨⟨[0, 2], 1, 2⟩, 0, 1⟩]

/-- The call that failed while it ran has left a graph, the other two have not. -/
theorem inferAll_accounts_mixed :
    ∃ plan new, Plan.cut 5 2 = .ok plan ∧ create plan unevenParams .standard = .ok new ∧
      (new.inferAll mixedCalls).1 = mixedCalls.map new.answer ∧
      (new.inferAll mixedCalls).2.statistics.callsCompleted = 2 ∧
      (new.inferAll mixedCalls).2.statistics.callsFailed = 3 ∧
      (new.inferAll mixedCalls).2.statistics.tokensProcessed = 6 ∧
      (new.inferAll mixedCalls).2.statistics.shardTasks = 12 ∧
      (∀ k g, Graph.build plan ⟨k, true⟩ = .ok g →
        (new.inferAll mixedCalls).2.statistics.copies = g.copyCount * 2 % Word.limit) ∧
      (new.inferAll mixedCalls).2.statistics.graphsPrepared = 2 := by
  have hplan : Plan.cut 5 2 = .ok ⟨5, [⟨0, 0, 2, 2, 5⟩, ⟨1, 2, 5, 2, 5⟩]⟩ := by cbv
  have hparams : unevenParams.validate ⟨5, [⟨0, 0, 2, 2, 5⟩, ⟨1, 2, 5, 2, 5⟩]⟩ = .ok () := by cbv
  have hcut := Plan.cutOf_of_cut hplan
  obtain ⟨new, hnew, hinfer⟩ :=
    exists_create (k := 2) hcut hparams (by decide) (by decide) .standard
  obtain ⟨new', hnew', hinfer'⟩ :=
    exists_create (k := 1) hcut hparams (by decide) (by decide) .standard
  obtain rfl : new = new' := Except.ok.inj (hnew.symm.trans hnew')
  have hfirst : (new.answer ⟨⟨[4, -3, 9, 1], 2, 2⟩, 2, 7⟩).isOk = true :=
    (congrArg Except.isOk (hinfer _ _)).trans (by cbv)
  have hrunning : (new.answer ⟨⟨[4, -3, 9], 2, 2⟩, 1, 5⟩).isOk = false :=
    (congrArg Except.isOk (hinfer' _ _)).trans (by cbv)
  have hfourth : (new.answer ⟨⟨[0, 2], 1, 2⟩, 2, 3⟩).isOk = true :=
    (congrArg Except.isOk (hinfer _ _)).trans (by cbv)
  have hgraphless : (new.answer ⟨⟨[4, -3], 1, 2⟩, 3, 0⟩).isOk = false ∧
      (new.answer ⟨⟨[0, 2], 1, 2⟩, 0, 1⟩).isOk = false := by
    obtain ⟨_, -, hcreate⟩ := bind_eq_ok.mp hnew
    cases hcreate
    constructor <;> cbv
  have hdone : mixedCalls.filter (fun call => (new.answer call).isOk) =
      [⟨⟨[4, -3, 9, 1], 2, 2⟩, 2, 7⟩, ⟨⟨[0, 2], 1, 2⟩, 2, 3⟩] := by
    simp [mixedCalls, hfirst, hrunning, hfourth, hgraphless]
  have hfailed : (mixedCalls.filter fun call => !(new.answer call).isOk).length = 3 := by
    simp [mixedCalls, hfirst, hrunning, hfourth, hgraphless]
  obtain ⟨hanswers, hcompleted, hfailures, htokens, htasks, hcopies, hgraphs⟩ :=
    inferAll_accounts hplan hnew mixedCalls
  rw [hdone] at hcompleted htokens htasks
  rw [hfailed] at hfailures
  exact ⟨_, new, hplan, hnew, hanswers, hcompleted, hfailures, htokens, htasks,
    fun k g hg => by rw [hcopies k g hg, hdone]; rfl, hgraphs⟩

end Coordinator

end ShardedModel
