import Draft.Raft.Steps

/-!
# Reactions

A step of the cluster is what one server does: the state it goes to is a
function of its own state, of the event and of the call the event is about.
-/

namespace Draft

open Raft

/-- The same call later: it may have been handled, and its callback may have run. -/
structure Call.Same (c d : Call) : Prop where
  src : d.src = c.src
  dst : d.dst = c.dst
  request : d.request = c.request
  done : c.done = true → d.done = true

theorem Call.Same.refl (c : Call) : c.Same c := ⟨rfl, rfl, rfl, fun h => h⟩

namespace World

variable {w w' : World}

/-- The state in which an event leaves the server that takes it, before its calls go out. -/
def reaction (w : World) : Event → Raft → Raft
  | .electionTimeout _, s => s.onElectionTimeout
  | .heartbeatTimeout _, s => s.onHeartbeatTimeout
  | .leadershipTransferTimeout _, s =>
      match s.leadershipTransferTimer with
      | none => s
      | some node => s.onLeadershipTransferTimeout node
  | .append _ data, s => s.append data
  | .transferLeadership _ address, s => (s.leadershipTransfer address).1
  | .addServer _ address, s => s.addServer address
  | .delServer _ address, s => s.delServer address
  | .popCommitted _, s => s.popCommitted
  | .applyNext _, s => s.applyNext
  | .compact _, s => s.compact
  | .writeFiles _ files, s => { s with sender := { s.sender with files := files } }
  | .handle i recent, s =>
      match w.calls[i]? with
      | none => s
      | some c => (s.serve recent c.request).1
  | .succeed i quick, s =>
      match w.calls[i]? with
      | none => s
      | some c => s.finish c.dst quick c.request c.response
  | .fail i quick, s =>
      match w.calls[i]? with
      | none => s
      | some c => s.finish c.dst quick c.request none

def touched (w : World) : Event → List Call
  | .handle i recent =>
      match w.calls[i]? with
      | none => w.calls
      | some c => w.calls.set i { c with
          response := some ((w.servers c.dst).serve recent c.request).2 }
  | .succeed i _ | .fail i _ =>
      match w.calls[i]? with
      | none => w.calls
      | some c => w.calls.set i { c with done := true }
  | _ => w.calls

theorem local_reaction {id : Bytes} {f : Raft → Raft} (h : w.local_ id f = some w') :
    id ∈ w.ids ∧ w' = w.act id (f (w.servers id)) := by
  unfold local_ at h
  split at h
  · rename_i hcond
    exact ⟨hcond.1, (Option.some.inj h).symm⟩
  · cases h

private theorem handle_reaction {i : Nat} {c : Call} {recent : Bool}
    (h : w.handleCall i c recent = some w') :
    c.dst ∈ w.ids ∧ w' = { w with calls := w.calls.set i { c with
        response := some ((w.servers c.dst).serve recent c.request).2 } }.act c.dst
      ((w.servers c.dst).serve recent c.request).1 := by
  unfold handleCall at h
  split at h
  · rename_i hcond
    exact ⟨hcond.1, (Option.some.inj h).symm⟩
  · cases h

private theorem finish_reaction {i : Nat} {c : Call} {res : Option Response} {quick : Bool}
    (h : w.finishCall i c res quick = some w') :
    c.src ∈ w.ids ∧ c.done = false ∧
      w' = { w with calls := w.calls.set i { c with done := true } }.act c.src
        ((w.servers c.src).finish c.dst quick c.request res) := by
  unfold finishCall at h
  split at h
  · rename_i hcond
    exact ⟨hcond.1, hcond.2.2, (Option.some.inj h).symm⟩
  · cases h

theorem step_reaction {e : Event} (h : w.step e = some w') :
    ∃ id, w.actor e = some id ∧ id ∈ w.ids ∧
      w' = { w with calls := w.touched e }.act id (w.reaction e (w.servers id)) := by
  have here : ∀ {id : Bytes} {f : Raft → Raft}, w.actor e = some id → w.touched e = w.calls →
      f (w.servers id) = w.reaction e (w.servers id) → w.local_ id f = some w' →
      ∃ id, w.actor e = some id ∧ id ∈ w.ids ∧
        w' = { w with calls := w.touched e }.act id (w.reaction e (w.servers id)) := by
    intro id f hactor htouched hf hlocal
    obtain ⟨hid, hw⟩ := local_reaction hlocal
    exact ⟨id, hactor, hid, by rw [htouched, ← hf, hw]⟩
  cases e with
  | electionTimeout id =>
      simp only [step] at h
      split at h
      · exact here rfl rfl rfl h
      · cases h
  | heartbeatTimeout id =>
      simp only [step] at h
      split at h
      · exact here rfl rfl rfl h
      · cases h
  | leadershipTransferTimeout id =>
      simp only [step] at h
      split at h
      · cases h
      · rename_i node hnode
        exact here rfl rfl (by simp only [reaction, hnode]) h
  | append id data => exact here rfl rfl rfl h
  | transferLeadership id address => exact here rfl rfl rfl h
  | addServer id address => exact here rfl rfl rfl h
  | delServer id address => exact here rfl rfl rfl h
  | popCommitted id => exact here rfl rfl rfl h
  | applyNext id => exact here rfl rfl rfl h
  | compact id => exact here rfl rfl rfl h
  | writeFiles id files => exact here rfl rfl rfl h
  | handle i recent =>
      simp only [step] at h
      split at h
      · cases h
      · rename_i c hc
        obtain ⟨hid, hw⟩ := handle_reaction h
        exact ⟨c.dst, by simp [actor, hc], hid, by simp only [hw, reaction, touched, hc]⟩
  | succeed i quick =>
      simp only [step] at h
      split at h
      · cases h
      · rename_i c hc
        split at h
        · cases h
        · obtain ⟨hid, -, hw⟩ := finish_reaction h
          exact ⟨c.src, by simp [actor, hc], hid, by simp only [hw, reaction, touched, hc]⟩
  | fail i quick =>
      simp only [step] at h
      split at h
      · cases h
      · rename_i c hc
        obtain ⟨hid, -, hw⟩ := finish_reaction h
        exact ⟨c.src, by simp [actor, hc], hid, by simp only [hw, reaction, touched, hc]⟩

theorem succeed_open {i : Nat} {c : Call} {quick : Bool} (hc : w.calls[i]? = some c)
    (h : w.step (.succeed i quick) = some w') : c.done = false := by
  simp only [step, hc] at h
  split at h
  · cases h
  · exact (finish_reaction h).2.1

/-! ## Calls -/

theorem touched_length (e : Event) : (w.touched e).length = w.calls.length := by
  cases e with
  | handle i recent =>
      simp only [touched]
      split
      · rfl
      · simp
  | succeed i quick =>
      simp only [touched]
      split
      · rfl
      · simp
  | fail i quick =>
      simp only [touched]
      split
      · rfl
      · simp
  | _ => rfl

private theorem same_set {calls : List Call} {i j : Nat} {a b c d : Call} (ha : calls[i]? = some a)
    (hab : a.Same b) (hc : calls[j]? = some c) (hd : (calls.set i b)[j]? = some d) : c.Same d := by
  by_cases hij : i = j
  · subst hij
    obtain rfl : a = c := Option.some.inj (ha.symm.trans hc)
    have hlt : i < calls.length := (List.getElem?_eq_some_iff.mp hc).1
    rw [List.getElem?_set_self hlt] at hd
    exact Option.some.inj hd ▸ hab
  · rw [List.getElem?_set_ne hij, hc] at hd
    exact Option.some.inj hd ▸ .refl c

theorem touched_same (e : Event) {j : Nat} {c d : Call} (hc : w.calls[j]? = some c)
    (hd : (w.touched e)[j]? = some d) : c.Same d := by
  have unchanged : w.touched e = w.calls → c.Same d := by
    intro h
    rw [h, hc] at hd
    exact Option.some.inj hd ▸ .refl c
  cases e with
  | handle i recent =>
      simp only [touched] at hd
      split at hd
      · exact Option.some.inj (hc.symm.trans hd) ▸ .refl c
      · rename_i a ha
        refine same_set ha ?_ hc hd
        exact ⟨rfl, rfl, rfl, fun h => h⟩
  | succeed i quick =>
      simp only [touched] at hd
      split at hd
      · exact Option.some.inj (hc.symm.trans hd) ▸ .refl c
      · rename_i a ha
        refine same_set ha ?_ hc hd
        exact ⟨rfl, rfl, rfl, fun _ => rfl⟩
  | fail i quick =>
      simp only [touched] at hd
      split at hd
      · exact Option.some.inj (hc.symm.trans hd) ▸ .refl c
      · rename_i a ha
        refine same_set ha ?_ hc hd
        exact ⟨rfl, rfl, rfl, fun _ => rfl⟩
  | _ => exact unchanged rfl

end World

end Draft
