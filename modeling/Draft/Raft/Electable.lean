import Mathlib.Order.Preorder.Finite
import Draft.Raft.ElectionSafety
import Draft.Raft.Marks
import Draft.Raft.Reactions

/-!
# Who can be elected

A voter refuses a candidate whose last term or whose last index is behind its
own.  Some server is electable among any servers exactly when their last marks
form a chain, and a chain is lost only when a leader appends.
-/

namespace Draft

open Consensus Raft

private theorem exists_greatest {α β : Type*} [Preorder β] {f : α → β} {S : Finset α} (hS : S.Nonempty)
    (hchain : ∀ x ∈ S, ∀ y ∈ S, f x ≤ f y ∨ f y ≤ f x) : ∃ x ∈ S, ∀ y ∈ S, f y ≤ f x := by
  obtain ⟨x, hx, hmax⟩ := S.exists_maximalFor f hS
  refine ⟨x, hx, fun y hy => ?_⟩
  rcases hchain x hx y hy with hle | hle
  · exact hmax hy hle
  · exact hle

def Comparable (p q : Nat × Nat) : Prop := p ≤ q ∨ q ≤ p

instance (p q : Nat × Nat) : Decidable (Comparable p q) :=
  inferInstanceAs (Decidable (p.1 ≤ q.1 ∧ p.2 ≤ q.2 ∨ q.1 ≤ p.1 ∧ q.2 ≤ p.2))

private theorem comparable_zero (p : Nat × Nat) : Comparable (0, 0) p :=
  .inl ⟨Nat.zero_le _, Nat.zero_le _⟩

theorem Comparable.symm {p q : Nat × Nat} (h : Comparable p q) : Comparable q p := Or.symm h

namespace World

variable {w w' : World}

/-- Some server of a set passes the log check of all others. -/
def Electable (w : World) (S : Finset Bytes) : Prop :=
  ∃ x ∈ S, ∀ y ∈ S, y ≠ x → (w.servers y).logAhead ((w.servers x).voteReq false) = false

private theorem logAhead_eq_false {s t : Raft} {early : Bool} :
    t.logAhead (s.voteReq early) = false ↔ t.log.lastMark ≤ s.log.lastMark := by
  unfold logAhead
  rw [Bool.or_eq_false_iff, decide_eq_false_iff_not, decide_eq_false_iff_not, not_lt, not_lt]
  rfl

private theorem electable_of_chain {S : Finset Bytes} (hS : S.Nonempty)
    (h : ∀ x ∈ S, ∀ y ∈ S,
      Comparable (w.servers x).log.lastMark (w.servers y).log.lastMark) : w.Electable S := by
  obtain ⟨x, hx, hgreatest⟩ := exists_greatest hS h
  exact ⟨x, hx, fun y hy _ => logAhead_eq_false.mpr (hgreatest y hy)⟩

/-- Some server is electable in every set exactly when the last marks are a chain. -/
theorem electable_iff {ids : List Bytes} :
    (∀ S : Finset Bytes, S.Nonempty → (∀ x ∈ S, x ∈ ids) → w.Electable S) ↔
      ∀ x ∈ ids, ∀ y ∈ ids,
        Comparable (w.servers x).log.lastMark (w.servers y).log.lastMark := by
  constructor
  · intro h x hx y hy
    by_cases hxy : x = y
    · rw [hxy]
      exact .inl le_rfl
    · obtain ⟨z, hz, hall⟩ := h {x, y} ⟨x, by simp⟩ (by simp [hx, hy])
      rcases Finset.mem_insert.mp hz with rfl | hz
      · exact .inr (logAhead_eq_false.mp (hall y (by simp) (Ne.symm hxy)))
      · rw [Finset.mem_singleton] at hz
        subst hz
        exact .inl (logAhead_eq_false.mp (hall x (by simp) hxy))
  · intro h S hS hsub
    exact electable_of_chain hS fun x hx y hy => h x (hsub x hx) y (hsub y hy)

/-! ## Marks in a cluster -/

def marks (w : World) : List (Nat × Nat) :=
  (w.ids.flatMap fun id => (w.servers id).log.marks) ++ w.calls.flatMap (·.request.marks)

private theorem mem_marks {m : Nat × Nat} : m ∈ w.marks ↔
    (∃ id ∈ w.ids, m ∈ (w.servers id).log.marks) ∨ ∃ c ∈ w.calls, m ∈ c.request.marks := by
  simp [marks]

def Chained (w : World) : Prop := ∀ p ∈ w.marks, ∀ q ∈ w.marks, Comparable p q

instance (w : World) : Decidable w.Chained := by
  unfold Chained
  infer_instance

/--
The entry that a leader appends is comparable with all there are, and a log is
compacted at an entry that has the index asked for.
-/
def OrderedMarks (w : World) : Event → Prop
  | .append id _ => (w.servers id).role = .leader →
      ∀ m ∈ w.marks, Comparable ((w.servers id).currTerm, (w.servers id).log.lastEntryIndex + 1) m
  | .compact id => ∀ index ∈ (w.servers id).callback,
      ∀ e ∈ (w.servers id).log.get index, e.index = index
  | _ => True

instance (w : World) : (e : Event) → Decidable (w.OrderedMarks e)
  | .append .. | .compact _ => by unfold OrderedMarks; infer_instance
  | .electionTimeout _ | .heartbeatTimeout _ | .leadershipTransferTimeout _
  | .transferLeadership .. | .addServer .. | .delServer .. | .popCommitted _ | .applyNext _
  | .writeFiles .. | .handle .. | .succeed .. | .fail .. => isTrue trivial

/-! ## Runs -/

private theorem compact_marks {s : Raft}
    (h : ∀ index ∈ s.callback, ∀ e ∈ s.log.get index, e.index = index) :
    ∀ m ∈ s.compact.log.marks, m = (0, 0) ∨ m ∈ s.log.marks := by
  have kept : ∀ m ∈ s.log.marks, m = (0, 0) ∨ m ∈ s.log.marks := fun _ hm => .inr hm
  unfold Raft.compact
  split
  · exact kept
  rename_i index hcallback
  dsimp only
  split
  swap
  · exact kept
  unfold EntryLogger.drop
  split
  · exact kept
  split
  · exact kept
  rename_i e he
  have hindex := h index hcallback e he
  intro m hm
  rcases List.mem_cons.mp hm with rfl | hm
  · -- the new base has the mark of the entry
    dsimp only [EntryLogger.copyStates]
    rw [← hindex]
    unfold EntryLogger.get at he
    split at he
    · cases he
    split at he
    · rw [← Option.some.inj he]
      exact .inl rfl
    · rcases List.mem_cons.mp (List.mem_of_getElem? he) with rfl | hmem
      · exact .inl rfl
      · exact .inr (s.log.mark_mem hmem)
  · obtain ⟨x, hx, rfl⟩ := List.mem_map.mp hm
    exact .inr (s.log.mark_mem (List.mem_of_mem_drop hx))

def newMark (w : World) : Event → Option (Nat × Nat)
  | .append id _ =>
      if (w.servers id).role = .leader then
        some ((w.servers id).currTerm, (w.servers id).log.lastEntryIndex + 1)
      else none
  | _ => none

structure Leaves (w : World) (e : Event) (s t : Raft) : Prop where
  log : ∀ m ∈ t.log.marks, m = (0, 0) ∨ m ∈ w.marks ∨ m ∈ w.newMark e
  sent : ∀ o ∈ t.sent, o ∈ s.sent ∨ ∀ m ∈ o.request.marks, m = (0, 0) ∨ m ∈ w.marks

private theorem reaction_leaves {e : Event} {id : Bytes} (hid : id ∈ w.ids) (hfixed : e.fixed)
    (hordered : w.OrderedMarks e) (hactor : w.actor e = some id)
    (hrecfg : (w.servers id).recfg = none) :
    w.Leaves e (w.servers id) (w.reaction e (w.servers id)) := by
  have hlog : ∀ m ∈ (w.servers id).log.marks, m ∈ w.marks := fun m hm =>
    mem_marks.mpr (.inl ⟨id, hid, hm⟩)
  have told : Tells (w.servers id) (w.reaction e (w.servers id)) →
      w.Leaves e (w.servers id) (w.reaction e (w.servers id)) := by
    intro h
    refine ⟨fun m hm => .inr (.inl (hlog m (h.log ▸ hm))), fun o ho => ?_⟩
    exact (h.sent o ho).imp_right fun hnew m hm => (hnew m hm).imp_right (hlog m)
  cases e with
  | electionTimeout i => exact told ((tells_preVote false).after (.of_eq rfl rfl))
  | heartbeatTimeout i => exact told (tells_appendEntries.after (.of_eq rfl rfl))
  | leadershipTransferTimeout i =>
      refine told ?_
      simp only [reaction]
      split
      · exact .refl _
      · exact tells_onLeadershipTransferTimeout _
  | append i data =>
      obtain rfl : i = id := by simpa [actor] using hactor
      simp only [reaction]
      unfold Raft.append
      split
      · exact ⟨fun m hm => .inr (.inl (hlog m hm)), fun o ho => .inl ho⟩
      · rename_i hrole
        refine ⟨fun m hm => ?_, fun o ho => .inl ho⟩
        rw [EntryLogger.marks_append] at hm
        rcases List.mem_append.mp hm with hm | hm
        · exact .inr (.inl (hlog m hm))
        · refine .inr (.inr ?_)
          rw [List.mem_singleton.mp hm, newMark, if_pos (not_not.mp hrole)]
          rfl
  | transferLeadership i address => exact told (tells_leadershipTransfer address)
  | addServer i address => cases hfixed
  | delServer i address => cases hfixed
  | popCommitted i => exact told tells_popCommitted
  | applyNext i => exact told tells_applyNext
  | compact i =>
      obtain rfl : i = id := by simpa [actor] using hactor
      refine ⟨fun m hm => ?_, fun o ho => .inl ?_⟩
      · exact (compact_marks hordered m hm).imp_right fun hm => .inl (hlog m hm)
      · simp only [reaction] at ho
        unfold Raft.compact at ho
        split at ho <;> exact ho
  | writeFiles i files => exact told (.of_eq rfl rfl)
  | handle i recent =>
      cases hc : w.calls[i]? with
      | none => simp [actor, hc] at hactor
      | some c =>
          simp only [reaction, hc]
          have hears := hears_serve (w.servers id) recent c.request
          have hcall : ∀ m ∈ c.request.marks, m ∈ w.marks := fun m hm =>
            mem_marks.mpr (.inr ⟨c, List.mem_of_getElem? hc, hm⟩)
          constructor
          · intro m hm
            refine .inr (.inl ?_)
            rcases hears.log m hm with hm | hm
            · exact hlog m hm
            · exact hcall m hm
          · intro o ho
            exact (hears.sent o ho).imp_right fun hnew m hm => (hnew m hm).imp_right (hlog m)
  | succeed i quick =>
      refine told ?_
      simp only [reaction]
      split
      · exact .refl _
      · exact tells_finish hrecfg _ quick _ _
  | fail i quick =>
      refine told ?_
      simp only [reaction]
      split
      · exact .refl _
      · exact tells_finish hrecfg _ quick _ _

private theorem marks_step {e : Event} (hready : w.Ready) (hfixed : e.fixed) (hordered : w.OrderedMarks e)
    (hstep : w.step e = some w') :
    ∀ m ∈ w'.marks, m = (0, 0) ∨ m ∈ w.marks ∨ m ∈ w.newMark e := by
  obtain ⟨id, hactor, hid, rfl⟩ := step_reaction hstep
  have leaves := reaction_leaves hid hfixed hordered hactor (hready.settled id hid).recfg
  intro m hm
  rcases mem_marks.mp hm with ⟨j, hj, hm⟩ | ⟨c, hc, hm⟩
  · by_cases hji : j = id
    · subst hji
      rw [act_self] at hm
      exact leaves.log m hm
    · rw [act_of_ne _ _ hji] at hm
      exact .inr (.inl (mem_marks.mpr (.inl ⟨j, hj, hm⟩)))
  · rcases List.mem_append.mp hc with hold | hnew
    · obtain ⟨k, hk, rfl⟩ := List.getElem_of_mem hold
      have hlt : k < w.calls.length := touched_length (w := w) e ▸ hk
      have hsame := touched_same e (List.getElem?_eq_getElem hlt) (List.getElem?_eq_getElem hk)
      rw [hsame.request] at hm
      exact .inr (.inl (mem_marks.mpr (.inr ⟨_, List.getElem_mem hlt, hm⟩)))
    · obtain ⟨o, ho, rfl⟩ := List.mem_map.mp hnew
      rcases leaves.sent o ho with hsent | hmarks
      · rw [hready.sent id hid] at hsent
        cases hsent
      · exact (hmarks m hm).imp_right .inl

private theorem chained_step {e : Event} (h : w.Chained) (hready : w.Ready) (hfixed : e.fixed)
    (hordered : w.OrderedMarks e) (hstep : w.step e = some w') : w'.Chained := by
  have hnew : ∀ m ∈ w.newMark e, ∀ q ∈ w.marks, Comparable m q := by
    intro m hm q hq
    cases e with
    | append id data =>
        simp only [newMark, Option.mem_def, Option.ite_none_right_eq_some] at hm
        obtain ⟨hrole, hm⟩ := hm
        rw [← Option.some.inj hm]
        exact hordered hrole q hq
    | _ => cases hm
  intro p hp q hq
  rcases marks_step hready hfixed hordered hstep p hp with rfl | hp | hp
  · exact comparable_zero q
  all_goals
    rcases marks_step hready hfixed hordered hstep q hq with rfl | hq | hq
    · exact (comparable_zero p).symm
  · exact h p hp q hq
  · exact (hnew q hq p hp).symm
  · exact hnew p hp q hq
  · rw [Option.mem_unique hp hq]
    exact .inl le_rfl

/--
In a run without reconfigurations in which leaders append only entries whose
marks are comparable with all there are, some server is electable in every set.
-/
theorem always_electable {es : List Event} (hstart : w.Started) (hchain : w.Chained)
    (hfixed : Along step (fun _ e => e.fixed) w es) (hordered : Along step OrderedMarks w es)
    (hrun : run step w es = some w') {S : Finset Bytes} (hS : S.Nonempty)
    (hsub : ∀ x ∈ S, x ∈ w'.ids) : w'.Electable S := by
  obtain ⟨-, hchained⟩ : w'.Ready ∧ w'.Chained := by
    refine run_invariant (P := fun w => w.Ready ∧ w.Chained) ?_ (hfixed.and hordered)
      ⟨hstart.ready, hchain⟩ hrun
    intro w e w' hcond ⟨hready, h⟩ hstep
    have hmoves : w.Moves True e w' := step_moves hready hcond.1 (.inl trivial) hstep
    exact ⟨hmoves.ready hready, chained_step h hready hcond.1 hcond.2 hstep⟩
  refine electable_of_chain hS fun x hx y hy => hchained _ ?_ _ ?_
  · exact mem_marks.mpr (.inl ⟨x, hsub x hx, EntryLogger.lastMark_mem _⟩)
  · exact mem_marks.mpr (.inl ⟨y, hsub y hy, EntryLogger.lastMark_mem _⟩)

theorem always_electable_leader :
    ∃ w', run step (cluster ["a:1", "b:1", "c:1"] true)
        [.electionTimeout (ascii "a:1"), .handle 0 false, .succeed 0 false, .handle 3 false,
          .succeed 3 false, .append (ascii "a:1") (ascii "x")] = some w' ∧
      w'.Electable {ascii "a:1", ascii "b:1", ascii "c:1"} := by
  refine ⟨_, (Option.some_get (by decide)).symm, ?_⟩
  exact always_electable (w := cluster ["a:1", "b:1", "c:1"] true) (by decide) (by decide)
    (by decide) (by decide) (Option.some_get (by decide)).symm ⟨ascii "a:1", by decide⟩
    (by decide)

/--
The leader `a` of term 2 appends two entries that reach nobody; `b` wins term 3
with the vote of `c` and appends one.
-/
def leftBehind : List Event :=
  [.electionTimeout (ascii "a:1"), .handle 0 false, .succeed 0 false, .handle 3 false,
    .succeed 3 false, .append (ascii "a:1") (ascii "x"), .append (ascii "a:1") (ascii "y"),
    .handle 2 false, .electionTimeout (ascii "b:1"), .handle 7 false, .succeed 7 false,
    .handle 9 false, .succeed 9 false, .append (ascii "b:1") (ascii "z")]

/-- Neither of `a` and `b` passes the log check of the other. -/
theorem nobody_electable :
    ¬ ∀ (w w' : World) (es : List Event), w.Started → w.Chained → Along step FixedMembers w es →
      run step w es = some w' →
      ∀ S : Finset Bytes, S.Nonempty → (∀ x ∈ S, x ∈ w'.ids) → w'.Electable S := by
  intro h
  have hrun := (Option.some_get (show (run step (cluster ["a:1", "b:1", "c:1"] true)
    leftBehind).isSome by decide)).symm
  have hall := electable_iff.mp (h _ _ leftBehind (by decide) (by decide) (by decide) hrun)
  exact absurd (hall (ascii "a:1") (by decide) (ascii "b:1") (by decide)) (by decide)

end World

end Draft
