import Draft.Consensus.LogMatching
import Draft.Foundation.FullLog
import Draft.Raft.Service

/-!
# Segments of logs

A request carries a segment of the full log of its sender, and merging such a
segment into a log gives that log back or the log of the sender, whichever
reaches further along.
-/

namespace Draft.Raft

open Consensus

variable {s : Raft} {log : EntryLogger} {full g : List Entry}

/-! ## What a request carries -/

private theorem entriesFrom_above (h : log.Holds full) (count i : Nat) (hi : log.lastIndex ≤ i) :
    entriesFrom log count (i + 1) = (full.drop i).take count := by
  induction count generalizing i with
  | zero => simp [entriesFrom]
  | succ count ih =>
      have hmap := h.get_succ_map i
      rw [if_neg (by omega)] at hmap
      rw [entriesFrom]
      cases hget : log.get (i + 1) with
      | none =>
          rw [hget] at hmap
          have hlen := List.getElem?_eq_none_iff.mp hmap.symm
          rw [List.drop_eq_nil_of_le hlen, List.take_nil]
      | some e =>
          rw [hget] at hmap
          obtain ⟨hi', he⟩ := List.getElem?_eq_some_iff.mp hmap.symm
          rw [ih (i + 1) (by omega), List.drop_eq_getElem_cons hi', he, List.take_succ_cons]

theorem entriesFrom_below (h : log.Holds full) (count i : Nat) (hi : i < log.lastIndex) :
    entriesFrom log count (i + 1) = [] := by
  cases count with
  | zero => rfl
  | succ count => rw [entriesFrom, h.get_below (by omega) (by omega)]

theorem prevLogIndex_eq (h : s.log.Holds full) {n : Node} {p : Nat} (hn : n.nextIndex = p + 1)
    (hp : p ≤ full.length) : (s.appendEntriesReq n).prevLogIndex =
      if p = 0 then 0 else max p s.log.lastIndex := by
  simp only [appendEntriesReq, hn, Nat.add_sub_cancel]
  cases p with
  | zero => simp [logEntrySentry]
  | succ k =>
      rw [if_neg (Nat.succ_ne_zero k)]
      have hmap := h.get_succ_map k
      cases hget : s.log.get (k + 1) with
      | none =>
          rw [Option.map_none, Option.getD_none]
          rcases h.get_eq_none_iff.mp hget with hlt | hge <;> omega
      | some e =>
          rw [hget] at hmap
          split at hmap
          · cases hmap
          · have hidx : e.index = k + 1 := h.indexed k _ hmap.symm
            rw [Option.map_some, Option.getD_some, hidx]
            omega

theorem appendEntriesReq_entries (h : s.log.Holds full) {n : Node} {p : Nat}
    (hn : n.nextIndex = p + 1) (hp : s.log.lastIndex ≤ p) :
    (s.appendEntriesReq n).entries = full.drop p := by
  simp only [appendEntriesReq, hn, h.lastEntryIndex_eq]
  rw [entriesFrom_above h _ _ hp, List.take_of_length_le (by simp)]

theorem appendEntriesReq_empty (h : s.log.Holds full) {n : Node} {p : Nat}
    (hn : n.nextIndex = p + 1) (hp : p < s.log.lastIndex) :
    (s.appendEntriesReq n).entries = [] := by
  simp only [appendEntriesReq, hn]
  exact entriesFrom_below h _ _ hp

/-- The request holds the place and the rest of a log whose base is not above it. -/
structure Segment (g : List Entry) (base : Nat) (req : AppendEntriesReq) : Prop where
  prev_le : req.prevLogIndex ≤ g.length
  prev_term : termAt g req.prevLogIndex = some req.prevLogTerm
  entries : req.entries = [] ∨ base ≤ req.prevLogIndex ∧ req.entries = g.drop req.prevLogIndex

theorem Segment.lastIndex_le {base : Nat} {req : AppendEntriesReq} (h : Segment g base req) :
    req.lastIndex ≤ g.length := by
  have hprev := h.prev_le
  unfold AppendEntriesReq.lastIndex
  rcases h.entries with hnil | ⟨-, hdrop⟩
  · rw [hnil, List.length_nil]
    omega
  · rw [hdrop, List.length_drop]
    omega

theorem Segment.index {base : Nat} {req : AppendEntriesReq} (h : Segment g base req)
    (hidx : Indexed g) {k : Nat} {e : Entry} (he : req.entries[k]? = some e) :
    e.index = req.prevLogIndex + k + 1 := by
  rcases h.entries with hnil | ⟨-, hdrop⟩
  · rw [hnil] at he
    cases he
  · rw [hdrop, List.getElem?_drop] at he
    exact hidx _ e he

theorem appendEntriesReq_segment (h : s.log.Holds full) (n : Node) (hn : 0 < n.nextIndex) :
    Segment full s.log.lastIndex (s.appendEntriesReq n) := by
  obtain ⟨k, hk⟩ : ∃ k, n.nextIndex = k + 1 := ⟨n.nextIndex - 1, by omega⟩
  have hreq : ∀ prev : Option LogEntry, s.log.get k = prev →
      (s.appendEntriesReq n).prevLogIndex = (prev.map (·.index)).getD s.log.lastIndex ∧
      (s.appendEntriesReq n).prevLogTerm = (prev.map (·.term)).getD s.log.lastTerm := by
    rintro _ rfl
    simp [appendEntriesReq, hk]
  have hentries : (s.appendEntriesReq n).entries =
      entriesFrom s.log (full.length - k) (k + 1) := by
    simp [appendEntriesReq, hk, h.lastEntryIndex_eq]
  have rest : (hi : s.log.lastIndex ≤ k) →
      (s.appendEntriesReq n).entries = full.drop k := by
    intro hi
    rw [hentries, entriesFrom_above h _ _ hi, List.take_of_length_le (by simp)]
  cases k with
  | zero =>
      obtain ⟨hprev, hterm⟩ := hreq _ (EntryLogger.get_zero s.log)
      refine ⟨by simp [hprev, logEntrySentry], by simp [hprev, hterm, logEntrySentry, termAt], ?_⟩
      rw [hprev]
      rcases Nat.eq_zero_or_pos s.log.lastIndex with h0 | hpos
      · exact .inr ⟨by omega, rest (by omega)⟩
      · exact .inl (hentries.trans (entriesFrom_below h _ _ hpos))
  | succ k =>
      have hmap := h.get_succ_map k
      cases hget : s.log.get (k + 1) with
      | none =>
          obtain ⟨hprev, hterm⟩ := hreq _ hget
          rw [hget] at hmap
          simp only [Option.map_none, Option.getD_none] at hprev hterm
          refine ⟨by rw [hprev]; exact h.base_le, by rw [hprev, hterm]; exact h.base_term, ?_⟩
          rcases Nat.lt_trichotomy (k + 1) s.log.lastIndex with hlow | heq | hhigh
          · exact .inl (hentries.trans (entriesFrom_below h _ _ hlow))
          · exact .inr ⟨by omega, by rw [hprev, ← heq]; exact rest (by omega)⟩
          · have hlen : full.length ≤ k := by
              rcases h.get_eq_none_iff.mp hget with hlt | hle
              · omega
              · exact hle
            exact .inl (by rw [hentries, show full.length - (k + 1) = 0 by omega, entriesFrom])
      | some e =>
          obtain ⟨hprev, hterm⟩ := hreq _ hget
          rw [hget] at hmap
          split at hmap
          · cases hmap
          · have hfull : full[k]? = some e.toEntry := hmap.symm
            have hidx : e.index = k + 1 := h.indexed k _ hfull
            simp only [Option.map_some, Option.getD_some, hidx] at hprev hterm
            refine ⟨?_, ?_, .inr ⟨by omega, ?_⟩⟩
            · rw [hprev]
              exact lt_length_of_getElem? hfull
            · rw [hprev, hterm, termAt, hfull]
              rfl
            · rw [hprev]
              exact rest (by omega)

/-! ## Merging a segment -/

def Agree (full g : List Entry) : Prop :=
  ∀ i x y, full[i]? = some x → g[i]? = some y → x.term = y.term →
    full.take (i + 1) = g.take (i + 1)

instance (full g : List Entry) : Decidable (Agree full g) :=
  decidable_of_iff (∀ i : Fin full.length, ∀ y ∈ g[i.val]?, (full.get i).term = y.term →
      full.take (i + 1) = g.take (i + 1))
    ⟨fun h i x y hx hy hterm => by
      obtain ⟨hi, rfl⟩ := List.getElem?_eq_some_iff.mp hx
      exact h ⟨i, hi⟩ y hy hterm,
    fun h i y hy hterm => h i _ y (List.getElem?_eq_getElem i.isLt) hy hterm⟩

theorem agree_take (g : List Entry) (b : Nat) : Agree (g.take b) g := by
  intro i x y hx _ _
  have hi : i < b := by
    have := lt_length_of_getElem? hx
    rw [List.length_take] at this
    omega
  rw [List.take_take, Nat.min_eq_left hi]

theorem Agree.take_of_termAt (h : Agree full g) {i t : Nat} (hfull : termAt full i = some t)
    (hg : termAt g i = some t) : full.take i = g.take i := by
  cases i with
  | zero => rfl
  | succ i =>
      simp only [termAt, Option.map_eq_some_iff] at hfull hg
      obtain ⟨x, hx, hxt⟩ := hfull
      obtain ⟨y, hy, hyt⟩ := hg
      exact h i x y hx hy (hxt.trans hyt.symm)

theorem le_length_of_termAt {i t : Nat} (h : termAt g i = some t) : i ≤ g.length := by
  cases i with
  | zero => exact Nat.zero_le _
  | succ i =>
      simp only [termAt, Option.map_eq_some_iff] at h
      obtain ⟨x, hx, -⟩ := h
      exact lt_length_of_getElem? hx

theorem Agree.eq_of_holds (h : Agree full g) (hfull : log.Holds full) (hg : log.Holds g) :
    full = g := by
  have htake := h.take_of_termAt hfull.base_term hg.base_term
  rw [← List.take_append_drop log.lastIndex full, htake, ← hfull.entries, hg.entries,
    List.take_append_drop]

theorem makeEntries_toEntry (log : EntryLogger) (entries : List Entry) :
    (makeEntries log entries).map LogEntry.toEntry = entries := by
  rw [makeEntries, List.map_map]
  exact List.map_id'' (fun _ => rfl) entries

private theorem append_rest (h : log.Holds full) (hg : Indexed g) {i : Nat} (hlen : full.length = i)
    (htake : full.take i = g.take i) :
    (log.append (makeEntries log (g.drop i))).Holds g := by
  have hfull : full = g.take i := by
    rw [← htake, ← hlen, List.take_length]
  have hnew := h.append (makeEntries_toEntry log (g.drop i)) fun j e he => by
    rw [List.getElem?_drop] at he
    rw [hg _ e he, hlen]
  have hjoin : full ++ g.drop i = g := by
    rw [hfull, List.take_append_drop]
  rwa [hjoin] at hnew

/--
Merging the rest of `g` from an index up to which both logs agree: the log stays
as it is when it holds all of `g`, and becomes `g` when it does not.
-/
theorem mergeEntries_drop (h : log.Holds full) (hg : Indexed g) (hagree : Agree full g)
    {i : Nat} (hbase : log.lastIndex ≤ i) (hfull : i ≤ full.length)
    (htake : full.take i = g.take i) :
    ∃ new, mergeEntries log (g.drop i) = some new ∧ new.lastIndex = log.lastIndex ∧
      (new = log ∧ g <+: full ∨ new.Holds g ∧ ¬ g <+: full) := by
  rcases Nat.lt_or_ge i g.length with hi | hi
  · obtain ⟨e, hge⟩ : ∃ e, g[i]? = some e := ⟨g[i], List.getElem?_eq_getElem hi⟩
    have hdrop : g.drop i = e :: g.drop (i + 1) := by
      rw [List.drop_eq_getElem_cons hi]
      rw [List.getElem?_eq_getElem hi, Option.some.injEq] at hge
      rw [hge]
    have hidx : e.index = i + 1 := hg i e hge
    rw [hdrop, mergeEntries, hidx, ← hdrop]
    cases hconflict : log.entryConflicted (i + 1) e.term with
    | true =>
        obtain ⟨-, x, hx, hne⟩ := h.entryConflicted_iff.mp hconflict
        obtain ⟨chopped, hchop, hholds, hlast⟩ := h.chop hbase (lt_length_of_getElem? hx)
        refine ⟨chopped.append (makeEntries chopped (g.drop i)), by rw [if_pos rfl, hchop]; rfl,
          hlast, .inr ⟨?_, fun hprefix => ?_⟩⟩
        · refine append_rest hholds hg ?_ ?_
          · rw [List.length_take, Nat.min_eq_left hfull]
          · rw [List.take_take, Nat.min_self, htake]
        · have := prefix_getElem? hprefix hge
          rw [hx, Option.some.injEq] at this
          exact hne (congrArg Entry.term this)
    | false =>
        rw [if_neg Bool.false_ne_true]
        cases hhas : log.hasEntry (i + 1) e.term with
        | true =>
            rw [if_pos rfl]
            have hterm := (h.hasEntry_iff.mp hhas).2
            have hgterm : termAt g (i + 1) = some e.term := by rw [termAt, hge]; rfl
            exact mergeEntries_drop h hg hagree (by omega) (le_length_of_termAt hterm)
              (hagree.take_of_termAt hterm hgterm)
        | false =>
            rw [if_neg Bool.false_ne_true]
            have hend : full.length = i := by
              by_contra hne
              have hlt : i < full.length := by omega
              have hx := List.getElem?_eq_getElem hlt
              by_cases hterm : (full[i]).term = e.term
              · have : log.hasEntry (i + 1) e.term = true :=
                  h.hasEntry_iff.mpr ⟨.inr (by omega), by rw [termAt, hx, ← hterm]; rfl⟩
                rw [hhas] at this
                cases this
              · have : log.entryConflicted (i + 1) e.term = true :=
                  h.entryConflicted_iff.mpr ⟨hbase, _, hx, hterm⟩
                rw [hconflict] at this
                cases this
            refine ⟨log.append (makeEntries log (g.drop i)), rfl, rfl,
              .inr ⟨append_rest h hg hend htake, fun hprefix => ?_⟩⟩
            have := hprefix.length_le
            omega
  · have hnil : g.drop i = [] := List.drop_eq_nil_of_le hi
    rw [hnil]
    refine ⟨log, rfl, rfl, .inl ⟨rfl, ?_⟩⟩
    rw [List.take_of_length_le hi] at htake
    exact htake ▸ List.take_prefix i full
termination_by g.length - i

theorem mergeEntries_drop_base (h : log.Holds full) (hg : Indexed g) (hagree : Agree full g)
    {i : Nat} (hbase : log.lastIndex = i + 1) (htake : full.take (i + 1) = g.take (i + 1))
    (hi : i < g.length) :
    ∃ new, mergeEntries log (g.drop i) = some new ∧ new.lastIndex = log.lastIndex ∧
      (new = log ∧ g <+: full ∨ new.Holds g ∧ ¬ g <+: full) := by
  have hfull : i + 1 ≤ full.length := hbase ▸ h.base_le
  obtain ⟨e, hge⟩ : ∃ e, g[i]? = some e := ⟨g[i], List.getElem?_eq_getElem hi⟩
  have hdrop : g.drop i = e :: g.drop (i + 1) := by
    rw [List.drop_eq_getElem_cons hi]
    rw [List.getElem?_eq_getElem hi, Option.some.injEq] at hge
    rw [hge]
  have hidx : e.index = i + 1 := hg i e hge
  have hfe : full[i]? = some e := (getElem?_eq_of_take_eq (Nat.lt_succ_self i) htake).trans hge
  have hconflict : log.entryConflicted (i + 1) e.term = false := by
    rw [← Bool.not_eq_true, h.entryConflicted_iff]
    rintro ⟨hle, -⟩
    omega
  have hhas : log.hasEntry (i + 1) e.term = true :=
    h.hasEntry_iff.mpr ⟨.inr (by omega), by rw [termAt, hfe]; rfl⟩
  rw [hdrop, mergeEntries, hidx, hconflict, hhas, if_neg Bool.false_ne_true, if_pos rfl]
  exact mergeEntries_drop h hg hagree (by omega) hfull htake

end Draft.Raft
