import ShardedModel.Proofs.JoinedGraph

/-!
# How often copies have to be joined

Copies are put into groups by the value that each of them reads before anything is joined.
A copy that reads a copy is sent elsewhere when the one it reads goes, and the value that it
reads from then on may have a copy already. Nothing looks at the groups again, so one call can
leave two copies of a value behind. `ReadsJoined` says exactly when: some copies read different
slots that the call makes one.

What one call leaves to be joined is further along in a chain of copies. Copies of a value that
is no copy are joined for good by the first call, copies of those by the second, and so on. After
as many calls as there are copies in the longest chain each value has one copy, and from then on
a call changes nothing.
-/

namespace ShardedModel.Graph

variable {g : Graph}

attribute [ext] Graph

/-! ## Nothing to join -/

/-- No two copies read the same value. -/
def CopiesDistinct (g : Graph) : Prop :=
  ∀ n ∈ g.nodes, ∀ m ∈ g.nodes, n.op.isCopy = true → m.op.isCopy = true →
    ∀ v ∈ n.inputs, v ∈ m.inputs → n = m

theorem isSome_group? {n : Node} {v : ValueRef} (hv : copySource? n = some v) :
    (g.group? n).isSome = true ↔ 1 < (g.copiesOf v).length := by
  cases hcopies : g.copiesOf v with
  | nil => simp [group?, hv, hcopies]
  | cons first rest =>
      cases rest with
      | nil => simp [group?, hv, hcopies]
      | cons second rest => simp [group?, hv, hcopies]

/-- A copy is in no group if it is the only copy of its value. -/
theorem group?_eq_none_iff {n : Node} (hn : n ∈ g.nodes) :
    g.group? n = none ↔
      ∀ m ∈ g.nodes, ∀ v, copySource? n = some v → copySource? m = some v → m = n := by
  constructor
  · intro hnone m hm v hnv hmv
    have hnone' : g.group? m = none := (group?_congr (hmv.trans hnv.symm)).trans hnone
    exact eq_of_not_absorbed hm hn hmv hnv (by simp [absorbed, hnone']) (by simp [absorbed, hnone])
  · intro halone
    cases hgroup : g.group? n with
    | none => rfl
    | some group =>
        obtain ⟨v, hv, h⟩ := Option.bind_eq_some_iff.mp hgroup
        split at h
        · next first second rest hcopies =>
            have hsame : ∀ m ∈ g.copiesOf v, m = n := by
              intro m hm
              obtain ⟨hm, hsource⟩ := List.mem_filter.mp hm
              exact halone m hm v hv (by simpa using hsource)
            have hordered : (g.copiesOf v).Pairwise (fun a b => a.id < b.id) := g.ordered.filter _
            rw [hcopies] at hsame hordered
            have hlt : first.id < second.id := (List.pairwise_cons.mp hordered).1 second (by simp)
            rw [hsame first (by simp), hsame second (by simp)] at hlt
            exact absurd hlt (Nat.lt_irrefl _)
        · cases h

theorem Valid.copiesDistinct_iff (h : g.Valid) :
    g.CopiesDistinct ↔ ∀ n ∈ g.nodes, g.group? n = none := by
  constructor
  · intro hdistinct n hn
    rw [group?_eq_none_iff hn]
    intro m hm v hnv hmv
    obtain ⟨hop, hv⟩ := (h.copySource?_iff hn).mp hnv
    obtain ⟨hop', hv'⟩ := (h.copySource?_iff hm).mp hmv
    exact hdistinct m hm n hn hop' hop v hv' hv
  · intro hnone n hn m hm hop hop' v hv hv'
    exact (group?_eq_none_iff hm).mp (hnone m hm) n hn v ((h.copySource?_iff hm).mpr ⟨hop', hv'⟩)
      ((h.copySource?_iff hn).mpr ⟨hop, hv⟩)

/-- Without groups a call changes nothing. -/
theorem coalesceCopies_of_no_groups (h : ∀ n ∈ g.nodes, g.group? n = none) :
    g.coalesceCopies = (g, 0) := by
  have hgone : g.nodes.filter g.absorbed = [] := by
    rw [List.filter_eq_nil_iff]
    intro n hn
    simp [absorbed, h n hn]
  have hredirect : g.redirect = id := by
    funext v
    cases hnode : g.node? v.node with
    | none => simp [redirect, hnode]
    | some n =>
        obtain ⟨hn, hid⟩ := mem_of_node? hnode
        exact redirect_of_no_group hn hid (h n hn)
  have hnodes : g.nodes.map (fun n => (⟨n.id, g.joinedOp n, n.inputs.map g.redirect⟩ : Node)) =
      g.nodes := by
    rw [hredirect]
    refine (List.map_congr_left fun n hn => ?_).trans (List.map_id _)
    simp [joinedOp, h n hn]
  have houtput : g.output?.map g.redirect = g.output? := by
    rw [hredirect, Option.map_id, id]
  unfold coalesceCopies
  rw [hgone, houtput]
  refine Prod.ext (Graph.ext rfl rfl ?_ rfl ?_ rfl rfl) rfl
  · show (g.nodes.filter fun _ => true).map _ = g.nodes
    rw [List.filter_true]
    exact hnodes
  · rfl

/-- A call on a checked graph finds nothing to join exactly if its copies read different values,
and then it leaves the graph as it is. -/
theorem Valid.nothing_to_join (h : g.Valid) :
    (g.coalesceCopies.2 = 0 ↔ g.CopiesDistinct) ∧
      (g.CopiesDistinct → g.coalesceCopies = (g, 0)) := by
  have hjoined : g.CopiesDistinct → g.coalesceCopies = (g, 0) := by
    intro hdistinct
    exact coalesceCopies_of_no_groups (h.copiesDistinct_iff.mp hdistinct)
  refine ⟨⟨fun hzero => ?_, fun hdistinct => by rw [hjoined hdistinct]⟩, hjoined⟩
  have hgone : g.nodes.filter g.absorbed = [] :=
    List.map_eq_nil_iff.mp (List.length_eq_zero_iff.mp hzero)
  rw [List.filter_eq_nil_iff] at hgone
  intro n hn m hm hop hop' v hv hv'
  exact eq_of_not_absorbed hn hm ((h.copySource?_iff hn).mpr ⟨hop, hv⟩)
    ((h.copySource?_iff hm).mpr ⟨hop', hv'⟩) (by simpa using hgone n hn) (by simpa using hgone m hm)

/-! ## What one call leaves -/

/-- The two values are slots of copies of one value, which has several copies, and are delivered
to one partition. Joining the copies makes them the same. -/
def JoinedSlots (g : Graph) (u w : ValueRef) : Prop :=
  ∃ c ∈ g.nodes, ∃ c' ∈ g.nodes, c.id = u.node ∧ c'.id = w.node ∧
    (∃ v, copySource? c = some v ∧ copySource? c' = some v ∧ 1 < g.copyReaders v) ∧
    ∃ p, g.valuePartition u = .ok p ∧ g.valuePartition w = .ok p

/-- Some copies read different values that joining makes the same. -/
def ReadsJoined (g : Graph) : Prop :=
  ∃ n ∈ g.nodes, ∃ m ∈ g.nodes, n.op.isCopy = true ∧ m.op.isCopy = true ∧
    ∃ u ∈ n.inputs, ∃ w ∈ m.inputs, u ≠ w ∧ g.JoinedSlots u w

/-- What a value is sent to belongs to the group of the value. -/
theorem exists_redirected {v : ValueRef} {p : PartitionId} (hp : g.valuePartition v = .ok p)
    {n : Node} (hn : n ∈ g.nodes) (hid : n.id = v.node) :
    ∃ m ∈ g.nodes, m.id = (g.redirect v).node ∧ copySource? m = copySource? n := by
  obtain ⟨m, hm, hmid, -, hsame⟩ := exists_standIn hn
  refine ⟨m, hm, by rw [redirect_node hp, hmid, hid], ?_⟩
  rcases hsame with rfl | ⟨source, hsource, hsource'⟩
  · rfl
  · rw [hsource, hsource']

/-- Two values become one exactly if they are joined. -/
theorem Valid.redirect_eq_iff (h : g.Valid) {u w : ValueRef} {p q : PartitionId}
    (hp : g.valuePartition u = .ok p) (hq : g.valuePartition w = .ok q) :
    g.redirect u = g.redirect w ↔ u = w ∨ g.JoinedSlots u w := by
  constructor
  · intro heq
    obtain ⟨c, hc, hcid, -⟩ := valuePartition_eq_ok.mp hp
    obtain ⟨c', hc', hcid', -⟩ := valuePartition_eq_ok.mp hq
    have hsame : copySource? c = copySource? c' := by
      obtain ⟨m, hm, hmid, hsource⟩ := exists_redirected hp hc hcid
      obtain ⟨m', hm', hmid', hsource'⟩ := exists_redirected hq hc' hcid'
      have hmm : m = m' := eq_of_key_eq g.ordered hm hm' (by rw [hmid, hmid', heq])
      rw [← hsource, ← hsource', hmm]
    cases hgroup : g.group? c with
    | none =>
        have hgroup' : g.group? c' = none := (group?_congr hsame.symm).trans hgroup
        rw [redirect_of_no_group hc hcid hgroup, redirect_of_no_group hc' hcid' hgroup'] at heq
        exact .inl heq
    | some group =>
        have hgroup' : g.group? c' = some group := (group?_congr hsame.symm).trans hgroup
        obtain ⟨hu, hpin⟩ := redirect_of_group hc hcid hgroup
          (destination_of_group hp hc hcid hgroup)
        obtain ⟨hw, -⟩ := redirect_of_group hc' hcid' hgroup'
          (destination_of_group hq hc' hcid' hgroup')
        rw [hu, hw, ValueRef.mk.injEq] at heq
        obtain rfl : p = q := (List.idxOf_inj hpin).mp heq.2
        obtain ⟨v, -, -, hv, -⟩ := group?_eq_some hgroup
        have hseveral : 1 < g.copyReaders v := by
          rw [h.copyReaders_eq]
          exact (isSome_group? hv).mp (by simp [hgroup])
        exact .inr ⟨c, hc, c', hc', hcid, hcid', ⟨v, hv, hsame.symm.trans hv, hseveral⟩, p, hp, hq⟩
  · intro heq
    rcases heq with rfl | ⟨c, hc, c', hc', hcid, hcid', ⟨v, hv, hv', hseveral⟩, r, hu, hw⟩
    · rfl
    · rw [h.copyReaders_eq] at hseveral
      obtain ⟨group, hgroup⟩ := Option.isSome_iff_exists.mp ((isSome_group? hv).mpr hseveral)
      have hgroup' : g.group? c' = some group := (group?_congr (hv'.trans hv.symm)).trans hgroup
      have hslot := destination_of_group hu hc hcid hgroup
      have hslot' := destination_of_group hw hc' hcid' hgroup'
      rw [(redirect_of_group hc hcid hgroup hslot).1,
        (redirect_of_group hc' hcid' hgroup' hslot').1]

theorem joinedOp_isCopy (g : Graph) (n : Node) : (g.joinedOp n).isCopy = n.op.isCopy := by
  rcases isCopy_joinedOp g n with hop | ⟨hop, hop'⟩
  · rw [hop]
  · rw [hop, hop']

/-- A node that stays reads what its value was sent to, and is a copy if it was one. -/
theorem copySource?_joined (g : Graph) (n : Node) :
    copySource? ⟨n.id, g.joinedOp n, n.inputs.map g.redirect⟩ = (copySource? n).map g.redirect := by
  unfold copySource?
  rw [joinedOp_isCopy]
  split
  · simp
  · rfl

/-- Of each value that is copied some copy stays. -/
theorem exists_staying {n : Node} (hn : n ∈ g.nodes) {u : ValueRef}
    (hu : copySource? n = some u) :
    ∃ m ∈ g.nodes, g.absorbed m = false ∧ copySource? m = some u := by
  obtain ⟨m, hm, -, hstays, rfl | ⟨v, hv, hv'⟩⟩ := exists_standIn hn
  · exact ⟨m, hm, hstays, hu⟩
  · exact ⟨m, hm, hstays, hv'.trans (hv.symm.trans hu)⟩

theorem Valid.exists_partition (h : g.Valid) {n : Node} (hn : n ∈ g.nodes) {u : ValueRef}
    (hu : copySource? n = some u) : ∃ p, g.valuePartition u = .ok p := by
  obtain ⟨p, hnode⟩ := h.nodes n hn
  exact ⟨p, hnode.near u ((h.copySource?_iff hn).mp hu).2⟩

/-- One call is enough unless copies read values that it joins. -/
theorem Valid.copiesDistinct_joined_iff (h : g.Valid) :
    g.coalesceCopies.1.CopiesDistinct ↔ ¬ g.ReadsJoined := by
  constructor
  · intro hdistinct hreads
    obtain ⟨n, hn, m, hm, hop, hop', u, hu, w, hw, hne, hslots⟩ := hreads
    have hnu := (h.copySource?_iff hn).mpr ⟨hop, hu⟩
    have hmw := (h.copySource?_iff hm).mpr ⟨hop', hw⟩
    obtain ⟨p, hp⟩ := h.exists_partition hn hnu
    obtain ⟨q, hq⟩ := h.exists_partition hm hmw
    have heq := (h.redirect_eq_iff hp hq).mpr (.inr hslots)
    obtain ⟨a, ha, hastays, hau⟩ := exists_staying hn hnu
    obtain ⟨b, hb, hbstays, hbw⟩ := exists_staying hm hmw
    have ha' := mem_nodes_coalesceCopies.mpr ⟨a, ha, hastays, rfl⟩
    have hb' := mem_nodes_coalesceCopies.mpr ⟨b, hb, hbstays, rfl⟩
    have hasource := (h.joined.copySource?_iff ha').mp
      ((copySource?_joined g a).trans (congrArg (Option.map g.redirect) hau))
    have hbsource := (h.joined.copySource?_iff hb').mp
      ((copySource?_joined g b).trans (congrArg (Option.map g.redirect) hbw))
    have hsame := hdistinct _ ha' _ hb' hasource.1 hbsource.1 _ hasource.2 (heq ▸ hbsource.2)
    obtain rfl : a = b := eq_of_key_eq g.ordered ha hb (Node.mk.inj hsame).1
    exact hne (Option.some.inj (hau.symm.trans hbw))
  · intro hnot n' hn' m' hm' hop hop' v hv hv'
    obtain ⟨n, hn, hstays, rfl⟩ := mem_nodes_coalesceCopies.mp hn'
    obtain ⟨m, hm, hstays', rfl⟩ := mem_nodes_coalesceCopies.mp hm'
    have hnv := (h.joined.copySource?_iff hn').mpr ⟨hop, hv⟩
    have hmv := (h.joined.copySource?_iff hm').mpr ⟨hop', hv'⟩
    rw [copySource?_joined, Option.map_eq_some_iff] at hnv hmv
    obtain ⟨u, hu, hv⟩ := hnv
    obtain ⟨w, hw, hv'⟩ := hmv
    obtain ⟨p, hp⟩ := h.exists_partition hn hu
    obtain ⟨q, hq⟩ := h.exists_partition hm hw
    by_cases heq : u = w
    · rw [eq_of_not_absorbed hn hm hu (heq ▸ hw) hstays hstays']
    · have hslots := ((h.redirect_eq_iff hp hq).mp (hv.trans hv'.symm)).resolve_left heq
      obtain ⟨hop, hu⟩ := (h.copySource?_iff hn).mp hu
      obtain ⟨hop', hw⟩ := (h.copySource?_iff hm).mp hw
      exact absurd ⟨n, hn, m, hm, hop, hop', u, hu, w, hw, heq, hslots⟩ hnot

/-! ## Chains of copies -/

/-- The copies that end a chain of more than `d` copies, each of which reads the one before. -/
def chainEnds (g : Graph) : Nat → List Node
  | 0 => g.nodes.filter (·.op.isCopy)
  | d + 1 => g.nodes.filter fun n =>
      n.op.isCopy && n.inputs.any fun v => (g.chainEnds d).any (·.id == v.node)

theorem mem_chainEnds_zero {n : Node} :
    n ∈ g.chainEnds 0 ↔ n ∈ g.nodes ∧ n.op.isCopy = true := by
  rw [chainEnds, List.mem_filter]

theorem mem_chainEnds_succ {d : Nat} {n : Node} :
    n ∈ g.chainEnds (d + 1) ↔ n ∈ g.nodes ∧ n.op.isCopy = true ∧
      ∃ v ∈ n.inputs, ∃ m ∈ g.chainEnds d, m.id = v.node := by
  simp [chainEnds]

theorem mem_of_mem_chainEnds {d : Nat} {n : Node} (h : n ∈ g.chainEnds d) :
    n ∈ g.nodes ∧ n.op.isCopy = true := by
  cases d with
  | zero => exact mem_chainEnds_zero.mp h
  | succ d =>
      obtain ⟨hn, hop, -⟩ := mem_chainEnds_succ.mp h
      exact ⟨hn, hop⟩

theorem exists_chainEnds_iff {d : Nat} {n : Node} (hn : n ∈ g.nodes) :
    (∃ m ∈ g.chainEnds d, m.id = n.id) ↔ n ∈ g.chainEnds d := by
  constructor
  · rintro ⟨m, hm, hid⟩
    exact eq_of_key_eq g.ordered (mem_of_mem_chainEnds hm).1 hn hid ▸ hm
  · intro h
    exact ⟨n, h, rfl⟩

theorem Valid.chainEnds_succ_iff (h : g.Valid) {d : Nat} {n : Node} (hn : n ∈ g.nodes)
    {u : ValueRef} (hu : copySource? n = some u) :
    n ∈ g.chainEnds (d + 1) ↔ ∃ m ∈ g.chainEnds d, m.id = u.node := by
  rw [mem_chainEnds_succ, h.inputs_of_copy hn hu]
  simp [hn, ((h.copySource?_iff hn).mp hu).1]

/-- Copies of one value end chains of the same lengths. -/
theorem Valid.chainEnds_congr (h : g.Valid) {d : Nat} {n m : Node} (hn : n ∈ g.nodes)
    (hm : m ∈ g.nodes) {u : ValueRef} (hu : copySource? n = some u) (hu' : copySource? m = some u) :
    n ∈ g.chainEnds d ↔ m ∈ g.chainEnds d := by
  cases d with
  | zero =>
      rw [mem_chainEnds_zero, mem_chainEnds_zero]
      simp [hn, hm, ((h.copySource?_iff hn).mp hu).1, ((h.copySource?_iff hm).mp hu').1]
  | succ d => rw [h.chainEnds_succ_iff hn hu, h.chainEnds_succ_iff hm hu']

/-- Joining copies makes no chain longer or shorter. -/
theorem Valid.chainEnds_joined (h : g.Valid) {d : Nat} {n : Node} (hn : n ∈ g.nodes)
    (hstays : g.absorbed n = false) :
    (⟨n.id, g.joinedOp n, n.inputs.map g.redirect⟩ : Node) ∈ g.coalesceCopies.1.chainEnds d ↔
      n ∈ g.chainEnds d := by
  induction d generalizing n with
  | zero =>
      have hn' := mem_nodes_coalesceCopies.mpr ⟨n, hn, hstays, rfl⟩
      rw [mem_chainEnds_zero, mem_chainEnds_zero]
      simp only [hn, hn', joinedOp_isCopy]
  | succ d ih =>
      have hn' := mem_nodes_coalesceCopies.mpr ⟨n, hn, hstays, rfl⟩
      by_cases hop : n.op.isCopy = true
      · obtain ⟨u, hu⟩ := h.exists_copySource? hn hop
        obtain ⟨p, hp⟩ := h.exists_partition hn hu
        obtain ⟨c, hc, hcid, -⟩ := valuePartition_eq_ok.mp hp
        obtain ⟨s, hs, hsid, hsstays, hsame⟩ := exists_standIn hc
        -- The chain goes on from what stands in for the value that the copy read.
        have hread : (g.redirect u).node = s.id := by rw [redirect_node hp, hsid, hcid]
        have hstand : c ∈ g.chainEnds d ↔ s ∈ g.chainEnds d := by
          rcases hsame with rfl | ⟨v, hv, hv'⟩
          · rfl
          · exact h.chainEnds_congr hc hs hv hv'
        have hs' := mem_nodes_coalesceCopies.mpr ⟨s, hs, hsstays, rfl⟩
        rw [h.joined.chainEnds_succ_iff hn'
          ((copySource?_joined g n).trans (congrArg (Option.map g.redirect) hu)),
          h.chainEnds_succ_iff hn hu, hread, ← hcid, exists_chainEnds_iff hc, hstand,
          ← ih hs hsstays]
        exact exists_chainEnds_iff hs'
      · constructor
        · intro hend
          exact absurd ((joinedOp_isCopy g n).symm.trans (mem_of_mem_chainEnds hend).2) hop
        · intro hend
          exact absurd (mem_of_mem_chainEnds hend).2 hop

/-- The copies of a chain are at different depths, so no copy is in it twice. -/
theorem exists_chain {depth : NodeId → Nat} (hdepths : Depths g depth) {d : Nat} {n : Node}
    (hn : n ∈ g.chainEnds d) :
    ∃ chain : List Node, chain.length = d + 1 ∧ chain.Nodup ∧
      ∀ m ∈ chain, m ∈ g.chainEnds 0 ∧ depth m.id ≤ depth n.id := by
  induction d generalizing n with
  | zero => exact ⟨[n], rfl, by simp, by simpa using hn⟩
  | succ d ih =>
      obtain ⟨hmem, hop, v, hv, m, hm, hid⟩ := mem_chainEnds_succ.mp hn
      obtain ⟨chain, hlength, hnodup, hbelow⟩ := ih hm
      have hlt := hdepths.lt n hmem v hv
      rw [← hid] at hlt
      refine ⟨n :: chain, by simp [hlength], List.nodup_cons.mpr ⟨fun hin => ?_, hnodup⟩, ?_⟩
      · exact absurd (hbelow n hin).2 (Nat.not_le_of_lt hlt)
      · intro k hk
        rcases List.mem_cons.mp hk with rfl | hk
        · exact ⟨mem_chainEnds_zero.mpr ⟨hmem, hop⟩, Nat.le_refl _⟩
        · exact ⟨(hbelow k hk).1, Nat.le_trans (hbelow k hk).2 (Nat.le_of_lt hlt)⟩

/-- No chain of a checked graph has more copies than the graph. -/
theorem Valid.chainEnds_copyCount (h : g.Valid) : g.chainEnds g.copyCount = [] := by
  obtain ⟨ws, hws⟩ := h.waves
  obtain ⟨depth, hdepths⟩ := exists_depths hws
  rw [List.eq_nil_iff_forall_not_mem]
  intro n hn
  obtain ⟨chain, hlength, hnodup, hcopies⟩ := exists_chain hdepths hn
  have hle := (List.subperm_of_subset hnodup fun m hm => (hcopies m hm).1).length_le
  rw [hlength, chainEnds, ← List.countP_eq_length_filter] at hle
  exact absurd hle (Nat.not_succ_le_self _)

/-! ## Call after call -/

/-- The graph after a number of calls. -/
def joinTimes (g : Graph) : Nat → Graph
  | 0 => g
  | d + 1 => (g.joinTimes d).coalesceCopies.1

/-- The copies that end no chain of more than `d` copies are the only ones of their values. -/
def SettledUpTo (g : Graph) (d : Nat) : Prop :=
  ∀ n ∈ g.nodes, n ∉ g.chainEnds d → g.group? n = none

theorem settledUpTo_zero (g : Graph) : g.SettledUpTo 0 := by
  intro n hn hnot
  refine group?_of_not_copy ?_
  rw [mem_chainEnds_zero] at hnot
  simpa [hn] using hnot

/-- A call settles the copies of settled copies. -/
theorem Valid.settledUpTo_succ (h : g.Valid) {d : Nat} (hsettled : g.SettledUpTo d) :
    g.coalesceCopies.1.SettledUpTo (d + 1) := by
  intro n' hn' hnot
  rw [group?_eq_none_iff hn']
  intro m' hm' v hnv hmv
  obtain ⟨n, hn, hstays, rfl⟩ := mem_nodes_coalesceCopies.mp hn'
  obtain ⟨m, hm, hstays', rfl⟩ := mem_nodes_coalesceCopies.mp hm'
  rw [h.chainEnds_joined hn hstays] at hnot
  rw [copySource?_joined, Option.map_eq_some_iff] at hnv hmv
  obtain ⟨u, hu, hv⟩ := hnv
  obtain ⟨w, hw, hv'⟩ := hmv
  obtain ⟨p, hp⟩ := h.exists_partition hn hu
  obtain ⟨q, hq⟩ := h.exists_partition hm hw
  rcases (h.redirect_eq_iff hp hq).mp (hv.trans hv'.symm) with heq | hslots
  · rw [eq_of_not_absorbed hm hn (heq ▸ hw) hu hstays' hstays]
  · -- The copy that `n` reads would be one of several, but it is settled.
    obtain ⟨c, hc, -, -, hcid, -, ⟨s, hs, -, hseveral⟩, -⟩ := hslots
    have hcnot : c ∉ g.chainEnds d := by
      intro hend
      exact hnot ((h.chainEnds_succ_iff hn hu).mpr ⟨c, hend, hcid⟩)
    rw [h.copyReaders_eq, ← isSome_group? hs, hsettled c hc hcnot] at hseveral
    cases hseveral

theorem Valid.joinTimes (h : g.Valid) (d : Nat) :
    (g.joinTimes d).Valid ∧ (g.joinTimes d).SettledUpTo d ∧
      ∀ e, g.chainEnds e = [] → (g.joinTimes d).chainEnds e = [] := by
  induction d with
  | zero => exact ⟨h, settledUpTo_zero g, fun _ he => he⟩
  | succ d ih =>
      obtain ⟨hvalid, hsettled, hshort⟩ := ih
      refine ⟨hvalid.joined, hvalid.settledUpTo_succ hsettled, ?_⟩
      intro e he
      rw [List.eq_nil_iff_forall_not_mem]
      intro n' hend
      obtain ⟨n, hn, hstays, rfl⟩ := mem_nodes_coalesceCopies.mp (mem_of_mem_chainEnds hend).1
      have hin := (hvalid.chainEnds_joined hn hstays).mp hend
      rw [hshort e he] at hin
      cases hin

/-- After as many calls as the longest chain has copies, no two copies read the same value. -/
theorem Valid.copiesDistinct_joinTimes (h : g.Valid) {d : Nat} (hd : g.chainEnds d = []) :
    (g.joinTimes d).CopiesDistinct := by
  obtain ⟨hvalid, hsettled, hshort⟩ := h.joinTimes d
  rw [hvalid.copiesDistinct_iff]
  intro n hn
  refine hsettled n hn ?_
  rw [hshort d hd]
  exact List.not_mem_nil

/-- After one call on a checked graph no two copies read the same value exactly if before it no
two copies read slots that the call joins, and this is also when a second call has nothing to do.
Calls settle the graph for good once there were as many as a chain has copies. -/
theorem coalesceCopies_settles (hvalidate : g.validate = .ok ()) :
    (g.coalesceCopies.1.CopiesDistinct ↔ ¬ g.ReadsJoined) ∧
    (g.coalesceCopies.1.coalesceCopies.2 = 0 ↔ ¬ g.ReadsJoined) ∧
    (¬ g.ReadsJoined → g.coalesceCopies.1.coalesceCopies = (g.coalesceCopies.1, 0)) ∧
    (∀ d, g.chainEnds d = [] →
      (g.joinTimes d).CopiesDistinct ∧ (g.joinTimes d).coalesceCopies = (g.joinTimes d, 0)) ∧
    g.chainEnds g.copyCount = [] := by
  have h : g.Valid := validate_eq_ok.mp hvalidate
  obtain ⟨hzero, hsame⟩ := h.joined.nothing_to_join
  have honce := h.copiesDistinct_joined_iff
  refine ⟨honce, hzero.trans honce, fun hnot => hsame (honce.mpr hnot), ?_, h.chainEnds_copyCount⟩
  intro d hd
  have hdistinct := h.copiesDistinct_joinTimes hd
  exact ⟨hdistinct, (h.joinTimes d).1.nothing_to_join.2 hdistinct⟩

/-- No chain has more than two copies, so two calls are enough. -/
theorem coalesceCopies_settles_chained :
    chained.validate = .ok () ∧ chained.chainEnds 2 = [] ∧
    (chained.joinTimes 2).nodes =
      [⟨0, .input, []⟩, ⟨1, .copy [1, 2], [⟨0, 0⟩]⟩, ⟨3, .gather 0, [⟨1, 0⟩]⟩,
        ⟨4, .copy [0, 2], [⟨1, 0⟩]⟩] ∧
    (chained.joinTimes 2).CopiesDistinct ∧
    (chained.joinTimes 2).coalesceCopies = (chained.joinTimes 2, 0) := by
  have hvalidate : chained.validate = .ok () := by cbv
  have hshort : chained.chainEnds 2 = [] := by cbv
  have hnodes : (chained.joinTimes 2).nodes =
      [⟨0, .input, []⟩, ⟨1, .copy [1, 2], [⟨0, 0⟩]⟩, ⟨3, .gather 0, [⟨1, 0⟩]⟩,
        ⟨4, .copy [0, 2], [⟨1, 0⟩]⟩] := by
    cbv
  obtain ⟨hdistinct, hsame⟩ := (coalesceCopies_settles hvalidate).2.2.2.1 2 hshort
  exact ⟨hvalidate, hshort, hnodes, hdistinct, hsame⟩

/-- One call leaves two copies of the first slot of the first copy, and the next joins them. -/
theorem one_call_of_chained :
    chained.validate = .ok () ∧ ¬ chained.coalesceCopies.1.CopiesDistinct ∧
    chained.coalesceCopies.1.coalesceCopies.2 = 1 := by
  have hvalidate : chained.validate = .ok () := by cbv
  refine ⟨hvalidate, ?_, by cbv⟩
  intro hdistinct
  have hnodes : chained.coalesceCopies.1.nodes =
      [⟨0, .input, []⟩, ⟨1, .copy [1, 2], [⟨0, 0⟩]⟩, ⟨3, .gather 0, [⟨1, 0⟩]⟩,
        ⟨4, .copy [0, 2], [⟨1, 0⟩]⟩, ⟨5, .copy [0], [⟨1, 0⟩]⟩] := by
    cbv
  have hsame := hdistinct ⟨4, .copy [0, 2], [⟨1, 0⟩]⟩ (by simp [hnodes])
    ⟨5, .copy [0], [⟨1, 0⟩]⟩ (by simp [hnodes]) rfl rfl ⟨1, 0⟩ (by simp) (by simp)
  cases hsame

end ShardedModel.Graph
