import Draft.Consensus.Run
import Draft.Foundation.ConsecutiveLog
import Draft.Raft.Service

/-!
# The chain of configuration entries

A configuration entry points to the newest one at the moment it is made.  A
leader appends the entries it makes one by one.  A follower makes all entries
of a batch before it appends any, so two configuration entries of one batch
point to the same entry and the older one of them is passed over.
-/

namespace Draft

open Consensus

namespace EntryLogger

def fresh : EntryLogger :=
  { lastIndex := 0, lastTerm := 0, lastConfig := [], entries := [], cfgEntryIndex := 0 }

inductive Change where
  /-- An entry of a leader. -/
  | append (data : Bytes) (term : Nat) (config : Bool)
  /-- The entries of a request that the log does not hold. -/
  | batch (entries : List Entry)
  | chop (index : Nat)
  | drop (index : Nat)
  deriving DecidableEq, Repr

def change (log : EntryLogger) : Change → Option EntryLogger
  | .append data term config =>
      some (log.append [log.makeEntry data (log.lastEntryIndex + 1) term config])
  | .batch entries =>
      if (log.append (Raft.makeEntries log entries)).Consecutive then
        some (log.append (Raft.makeEntries log entries))
      else none
  | .chop index => log.chop index
  | .drop index => log.drop index

def visited (log : EntryLogger) : Nat → Nat → List LogEntry
  | 0, _ => []
  | fuel + 1, cfg =>
      match log.get cfg with
      | none => []
      | some e => if e.config then e :: visited log fuel e.prevCfg else []

def newestUpTo (log : EntryLogger) (index : Nat) : Option LogEntry :=
  (log.entries.filter fun e => e.config && e.index ≤ index).getLast?

/-- The chain visits the configuration entries, and begins at the newest one. -/
structure ExactChain (log : EntryLogger) : Prop where
  visited : ∀ fuel, log.entries.length ≤ fuel →
    log.visited fuel log.cfgEntryIndex = (log.entries.filter (·.config)).reverse
  newest : ∀ x ∈ log.newestEntry, log.cfgEntryIndex = x.index

def Stored (log new : EntryLogger) (index : Nat) : Prop :=
  new.lastConfig = ((log.newestUpTo index).map (·.data)).getD log.lastConfig

/--
One configuration entry at most in a batch.  An empty configuration is dropped
only where none was stored before.
-/
def Linkable (log : EntryLogger) : Change → Prop
  | .append .. | .chop _ => True
  | .batch entries => (entries.filter (·.config)).length ≤ 1
  | .drop index => ∀ x ∈ log.newestUpTo index, x.data = [] → log.lastConfig = []

instance (log : EntryLogger) : (c : Change) → Decidable (log.Linkable c)
  | .append .. | .chop _ => isTrue trivial
  | .batch _ => by unfold Linkable; infer_instance
  | .drop _ => by unfold Linkable; infer_instance

variable {log new : EntryLogger} {i : Nat}

/-! ## Links that skip nothing -/

/-- The chain begins at the newest configuration entry and no link skips one. -/
structure Unbroken (log : EntryLogger) : Prop extends Traced log where
  prev_le : ∀ d ∈ log.entries, d.config = true → ∀ e ∈ log.entries, e.config = true →
    d.index < e.index → d.index ≤ e.prevCfg

namespace Unbroken

private theorem unskipped (h : log.Unbroken) (i : Nat) : log.Unskipped i :=
  fun d hd hdconfig hlt e he heconfig hle =>
    h.prev_le d hd hdconfig e he heconfig (Nat.lt_of_lt_of_le hlt hle)

private theorem filter_link (h : log.Unbroken) {x : LogEntry} (hx : x ∈ log.entries)
    (hconfig : x.config = true) :
    (log.entries.filter fun e => e.config && e.index ≤ x.index) =
      (log.entries.filter fun e => e.config && e.index ≤ x.prevCfg) ++ [x] := by
  obtain ⟨before, after, hsplit⟩ := List.append_of_mem hx
  have hprev := (h.prev x hx hconfig).1
  have hbefore : ∀ e ∈ before, e.index < x.index := fun e he =>
    h.consecutive.lt_of_append hsplit he List.mem_cons_self
  have hsplit' : log.entries = (before ++ [x]) ++ after := by simp [hsplit]
  have hafter : ∀ e ∈ after, x.index < e.index := fun e he =>
    h.consecutive.lt_of_append hsplit' (by simp) he
  have hlow : (before.filter fun e => e.config && e.index ≤ x.index) =
      before.filter fun e => e.config && e.index ≤ x.prevCfg := by
    apply List.filter_congr
    intro e he
    cases heconfig : e.config with
    | false => simp
    | true =>
        have hlt := hbefore e he
        have hle := h.prev_le e (by simp [hsplit, he]) heconfig x hx hconfig hlt
        simp [hle, Nat.le_of_lt hlt]
  have hhigh : ∀ k, k ≤ x.index → (after.filter fun e => e.config && e.index ≤ k) = [] := by
    intro k hk
    rw [List.filter_eq_nil_iff]
    intro e he
    have := hafter e he
    simp only [Bool.and_eq_true, decide_eq_true_eq, not_and]
    omega
  rw [hsplit, List.filter_append, List.filter_append, hlow, List.append_assoc]
  congr 1
  rw [List.filter_cons_of_pos (by simp [hconfig]), hhigh _ (Nat.le_refl _),
    List.filter_cons_of_neg (by simp; omega), hhigh _ (by omega), List.nil_append]

private theorem visited_eq (h : log.Unbroken) {fuel cfg : Nat} (hcfg : log.Links cfg)
    (hfuel : cfg ≤ log.lastIndex + fuel) :
    log.visited fuel cfg = (log.entries.filter fun e => e.config && e.index ≤ cfg).reverse := by
  have hnone : cfg ≤ log.lastIndex →
      (log.entries.filter fun e => e.config && e.index ≤ cfg) = [] := by
    intro hle
    rw [List.filter_eq_nil_iff]
    intro e he
    have := (h.consecutive.mem_bounds he).1
    simp only [Bool.and_eq_true, decide_eq_true_eq, not_and]
    omega
  induction fuel generalizing cfg with
  | zero => rw [visited, hnone hfuel, List.reverse_nil]
  | succ fuel ih =>
      rcases hcfg with hbase | ⟨x, hx, hconfig, rfl⟩
      · rw [visited, hnone hbase, h.consecutive.get_eq]
        split
        · rfl
        · rename_i hget
          split at hget
          · cases hget
            rfl
          · rw [if_neg (by omega)] at hget
            cases hget
      · obtain ⟨hlt, hlink⟩ := h.prev x hx hconfig
        have hrest := ih hlink (by omega) fun hle => by
          rw [List.filter_eq_nil_iff]
          intro e he
          have := (h.consecutive.mem_bounds he).1
          simp only [Bool.and_eq_true, decide_eq_true_eq, not_and]
          omega
        rw [visited, h.consecutive.get_mem hx, h.filter_link hx hconfig, List.reverse_append]
        simp [hconfig, hrest]

private theorem exactChain (h : log.Unbroken) : log.ExactChain where
  visited := by
    intro fuel hfuel
    have hcfg := h.cfg_le h.consecutive
    rw [h.visited_eq h.newest (by omega)]
    congr 1
    apply List.filter_congr
    intro e he
    cases hconfig : e.config with
    | false => rfl
    | true => simpa using h.newest_le e he hconfig
  newest := fun x hx => (h.newestEntry_index hx).symm

/-! ## What a change keeps -/

theorem append (h : log.Unbroken) {batch : List LogEntry}
    (hnew : (log.append batch).Consecutive)
    (hprev : ∀ x ∈ batch, x.config = true → x.prevCfg = log.cfgEntryIndex)
    (hone : (batch.filter (·.config)).length ≤ 1) : (log.append batch).Unbroken := by
  have htraced := Traced.append h.toChained h.consecutive hnew hprev (.inl h.newest_le)
  refine ⟨htraced, ?_⟩
  intro d hd hdconfig e he heconfig hlt
  rcases List.mem_append.mp he with he | he
  · rcases List.mem_append.mp hd with hd | hd
    · exact h.prev_le d hd hdconfig e he heconfig hlt
    · have := hnew.lt_of_append rfl he hd
      omega
  · rw [hprev e he heconfig]
    rcases List.mem_append.mp hd with hd | hd
    · exact h.newest_le d hd hdconfig
    · -- two configuration entries of one batch
      have hfilter : ∀ x ∈ batch, x.config = true → x ∈ batch.filter (·.config) :=
        fun x hx hconfig => List.mem_filter.mpr ⟨hx, hconfig⟩
      obtain ⟨x, hx⟩ : ∃ x, batch.filter (·.config) = [x] :=
        List.length_eq_one_iff.mp (Nat.le_antisymm hone
          (List.length_pos_of_mem (hfilter d hd hdconfig)))
      have hdx := hfilter d hd hdconfig
      have hex := hfilter e he heconfig
      rw [hx, List.mem_singleton] at hdx hex
      rw [hdx, hex] at hlt
      omega

theorem chop (h : log.Unbroken) (hchop : log.chop i = some new) : new.Unbroken := by
  obtain ⟨hchained, hcons, hmem, -, -, hnewest⟩ := h.toTraced.chop hchop
  refine ⟨⟨hchained, hcons, hnewest (h.unskipped i)⟩, ?_⟩
  intro d hd hdconfig e he heconfig
  exact h.prev_le d ((hmem d).mp hd).1 hdconfig e ((hmem e).mp he).1 heconfig

theorem drop (h : log.Unbroken) (hdrop : log.drop i = some new) : new.Unbroken := by
  have htraced := h.toTraced.drop_traced hdrop
  obtain ⟨k, term, -, rfl⟩ := h.consecutive.drop_eq hdrop
  refine ⟨htraced, ?_⟩
  intro d hd hdconfig e he heconfig
  exact h.prev_le d (List.mem_of_mem_drop hd) hdconfig e (List.mem_of_mem_drop he) heconfig

private theorem makeEntries_prev (log : EntryLogger) (entries : List Entry) :
    ∀ x ∈ Raft.makeEntries log entries, x.config = true → x.prevCfg = log.cfgEntryIndex := by
  intro x hx hconfig
  obtain ⟨e, -, rfl⟩ := List.mem_map.mp hx
  exact if_pos hconfig

theorem change (h : log.Unbroken) {c : Change} (hc : log.Linkable c)
    (hchange : log.change c = some new) : new.Unbroken := by
  cases c with
  | append data term config =>
      cases hchange
      refine h.append ?_ ?_ ?_
      · apply h.consecutive.append
        intro k x hx
        have hlast := h.consecutive.lastEntryIndex_eq
        cases k with
        | zero =>
            cases hx
            dsimp only [makeEntry]
            omega
        | succ k => cases hx
      · intro x hx hconfig
        rw [List.mem_singleton.mp hx] at hconfig ⊢
        exact if_pos hconfig
      · exact List.length_filter_le _ _
  | batch entries =>
      simp only [EntryLogger.change] at hchange
      split at hchange
      · rename_i hcons
        cases hchange
        refine h.append hcons (makeEntries_prev log entries) ?_
        rw [Raft.makeEntries, List.filter_map, List.length_map]
        exact hc
      · cases hchange
  | chop i => exact h.chop hchange
  | drop i => exact h.drop hchange

/-! ## What is stored -/

private theorem newestUpTo_le (h : log.Unbroken) {x : LogEntry} (hx : log.newestUpTo i = some x) :
    x ∈ log.entries ∧ x.config = true ∧ x.index ≤ i ∧
      ∀ y ∈ log.entries, y.config = true → y.index ≤ i → y.index ≤ x.index := by
  obtain ⟨before, hsplit⟩ := List.getLast?_eq_some_iff.mp hx
  have hmem := List.mem_filter.mp (List.mem_of_getLast? hx)
  simp only [Bool.and_eq_true, decide_eq_true_eq] at hmem
  refine ⟨hmem.1, hmem.2.1, hmem.2.2, ?_⟩
  have hsorted : log.entries.Pairwise (·.index < ·.index) := by
    rw [List.pairwise_iff_getElem]
    intro a b ha hb hab
    rw [h.consecutive a _ (List.getElem?_eq_getElem ha),
      h.consecutive b _ (List.getElem?_eq_getElem hb)]
    omega
  have hfilter := hsorted.filter fun e => e.config && e.index ≤ i
  rw [hsplit, List.pairwise_append] at hfilter
  intro y hy hconfig hle
  have hy' : y ∈ log.entries.filter fun e => e.config && e.index ≤ i :=
    List.mem_filter.mpr ⟨hy, by simp [hconfig, hle]⟩
  rw [hsplit] at hy'
  rcases List.mem_append.mp hy' with hy' | hy'
  · exact Nat.le_of_lt (hfilter.2.2 y hy' x (List.mem_singleton_self x))
  · exact Nat.le_of_eq (congrArg (·.index) (List.mem_singleton.mp hy'))

theorem configUpTo_eq (h : log.Unbroken) (hi : log.lastIndex ≤ i) :
    log.configUpTo i = ((log.newestUpTo i).map (·.data)).getD [] := by
  obtain ⟨hbelow, hlink, -, hover⟩ := h.cfgBelow_spec h.consecutive (i := i + 1) (by omega) h.newest
    (h.cfg_le h.consecutive)
  unfold configUpTo
  dsimp only
  cases hnewest : log.newestUpTo i with
  | some x =>
      obtain ⟨hx, hconfig, hle, hmax⟩ := h.newestUpTo_le hnewest
      have hbounds := h.consecutive.mem_bounds hx
      have hreach := hover x.index (by omega) (h.newest_le x hx hconfig)
        (h.unskipped (i + 1) x hx hconfig (by omega))
      rcases hlink with hbase | ⟨y, hy, hyconfig, hindex⟩
      · omega
      · have hyx : y = x := h.consecutive.mem_unique hy hx (by
          have := hmax y hy hyconfig (by omega)
          omega)
        subst hyx
        rw [← hindex, if_neg (by omega), h.consecutive.get_mem hx]
        rfl
  | none =>
      have hnil := List.getLast?_eq_none_iff.mp hnewest
      split
      · rfl
      · rename_i hcfg
        rcases hlink with hbase | ⟨y, hy, hyconfig, hindex⟩
        · rw [h.consecutive.get_eq, if_neg hcfg, if_neg (by omega)]
          rfl
        · have := List.filter_eq_nil_iff.mp hnil y hy
          simp only [hyconfig, Bool.true_and, decide_eq_true_eq] at this
          omega

private theorem stored (h : log.Unbroken) (hc : log.Linkable (.drop i)) (hdrop : log.drop i = some new) :
    Stored log new i := by
  obtain ⟨k, term, hi, rfl⟩ := h.consecutive.drop_eq hdrop
  have hconfig := h.configUpTo_eq (i := i) (by omega)
  rw [hi] at hconfig hc ⊢
  unfold Stored
  dsimp only [copyStates]
  rw [hconfig]
  cases hnewest : log.newestUpTo (log.lastIndex + k + 1) with
  | none => simp
  | some x =>
      by_cases hdata : x.data = []
      · simp [hdata, hc x hnewest hdata]
      · simp [hdata]

end Unbroken

/-! ## Runs -/

private theorem unbroken_fresh : fresh.Unbroken := by
  refine ⟨⟨⟨.inl (Nat.le_refl _), ?_⟩, ?_, ?_⟩, ?_⟩ <;> simp [fresh, Consecutive]

/--
In a run without a batch that holds two configuration entries the chain is
exact, and what is dropped leaves the newest configuration behind.
-/
theorem configuration_chain {cs : List Change} (hlinkable : Along change Linkable fresh cs)
    (hrun : run change fresh cs = some log) :
    log.ExactChain ∧
      ∀ i new, log.Linkable (.drop i) → log.drop i = some new → Stored log new i := by
  have h : log.Unbroken :=
    run_invariant (fun _ _ _ hc h hchange => h.change hc hchange) hlinkable unbroken_fresh hrun
  exact ⟨h.exactChain, fun i new hc hdrop => h.stored hc hdrop⟩

def members (index : Nat) (data : String) : Entry :=
  { term := 1, index := index, data := ascii data, config := true }

def singleSteps : List Change :=
  [.append (ascii "a") 1 true, .batch [members 2 "a,b", { members 3 "d x" with config := false }],
    .append (ascii "a,b,c") 1 true, .chop 4, .drop 1]

theorem configuration_chain_single :
    ∃ log, run change fresh singleSteps = some log ∧
      log.visited 2 log.cfgEntryIndex = (log.entries.filter (·.config)).reverse ∧
      log.cfgEntryIndex = 2 ∧ ∃ new, log.drop 3 = some new ∧ Stored log new 3 := by
  have hrun := (Option.some_get (show (run change fresh singleSteps).isSome by decide)).symm
  have h := configuration_chain (by decide) hrun
  exact ⟨_, hrun, h.1.visited 2 (by decide), by decide,
    _, (Option.some_get (by decide)).symm, h.2 3 _ (by decide) (Option.some_get (by decide)).symm⟩

/-- Both entries of the batch point below the log, so the chain has the second one only. -/
theorem configuration_chain_batch :
    ¬ ∀ (cs : List Change) (log : EntryLogger), run change fresh cs = some log →
      log.ExactChain ∧ ∀ i new, log.drop i = some new → Stored log new i := by
  intro h
  have hrun := (Option.some_get (show (run change fresh
    [.batch [members 1 "a", members 2 "a,b"]]).isSome by decide)).symm
  exact absurd ((h _ _ hrun).1.visited 2 (by decide)) (by decide)

/-- After a chop the older entry is in the log, and the chain begins nowhere. -/
example : (run change fresh [.batch [members 1 "a", members 2 "a,b"], .chop 2]).map
    (fun log => (log.newestEntry.map (·.index), log.cfgEntryIndex)) = some (some 1, 0) := by
  decide

end EntryLogger

end Draft
