import Draft.Foundation.Replay
import Draft.Kv.Storage
import Draft.Raft.Administration

/-!
# The storage server

A storage server has a raft server under it: clients' commands become entries,
and what raft commits changes the database.  The sessions that wait for their
entry are kept by its index.  The snapshot file is taken for what it decodes to.
-/

namespace Draft

open Raft

def Raft.passes (s : Raft) : Option LogEntry :=
  if ¬ s.draining ∨ s.callback.isSome ∨ s.commitIndex ≤ s.lastApplied then none
  else (s.log.get (s.lastApplied + 1)).filter fun e => !e.config

namespace Kv

structure Waiting where
  session : Nat
  cmd : Command
  deriving DecidableEq, Repr

structure Reply where
  session : Nat
  status : String
  data : Bytes
  deriving DecidableEq, Repr

structure Store where
  db : Database
  /-- The command that `handle_command` is about to append. -/
  appending : Option Waiting
  /-- `commands`, an association list in the place of the hash map. -/
  commands : List (Nat × Waiting)
  /-- History: what was written to the sessions. -/
  replies : List Reply
  /-- The snapshot file, if it has been written. -/
  snapshot : Option Database
  /-- History: how many entries had been passed to the callback when it was written. -/
  taken : Nat

def Store.empty : Store :=
  { db := .empty, appending := none, commands := [], replies := [], snapshot := none, taken := 0 }

structure Server where
  raft : Raft
  store : Store

/-- `RC_NOT_LEADER`, as a 64-bit index. -/
def notLeader : Nat := 2 ^ 64 - 10

namespace Store

variable (s : Store)

def write (session : Nat) (status : String) (data : Bytes) : Store :=
  { s with replies := s.replies ++ [⟨session, status, data⟩] }

/-- `handle_command` up to its call of `append`. -/
def handleCommand (raft : Raft) (session : Nat) (cmd : Command) : Store :=
  match cmd.type with
  | .get => s.write session "OK" ((s.db cmd.key).getD (ascii "null"))
  | .set | .del =>
      if raft.role ≠ .leader then s.write session "NOT_LEADER" raft.leader
      else { s with appending := some ⟨session, cmd⟩ }
  | .unknown => s

/-- `handle_command` after the call; `commands.insert` keeps a session that is there. -/
def waitFor (index : Nat) : Store :=
  match s.appending with
  | none => s
  | some w =>
      let s := { s with appending := none }
      if index = 0 then s.write w.session "INTERNAL_ERROR" []
      else if s.commands.any (·.1 = index) then s
      else { s with commands := s.commands ++ [(index, w)] }

def find (index : Nat) : Option Waiting := (s.commands.find? (·.1 = index)).map (·.2)

/-- `insert`; the session is told the old value of a key that it set. -/
def insert (w : Waiting) : Store :=
  match w.cmd.type with
  | .get | .unknown => s
  | .set => { s with db := s.db.insert w.cmd }.write w.session "OK" ((s.db w.cmd.key).getD [])
  | .del => { s with db := s.db.insert w.cmd }.write w.session "OK" []

/-- `on_log_entry_committed` up to the compaction of the log. -/
def onLogEntryCommitted (e : LogEntry) : Store :=
  match s.find e.index with
  | none => { s with db := s.db.apply e.data }
  | some w => { s.insert w with commands := s.commands.filter (·.1 ≠ e.index) }

def takeSnapshot (applied : Nat) : Store := { s with snapshot := some s.db, taken := applied }

end Store

namespace Server

variable (s : Server)

def appendIndex : Nat :=
  if s.raft.role ≠ .leader then notLeader else s.raft.log.lastEntryIndex + 1

def appendCommand : Server :=
  match s.store.appending with
  | none => s
  | some w =>
      { raft := s.raft.append (logText w.cmd), store := s.store.waitFor s.appendIndex }

def applyNext : Server :=
  { raft := s.raft.applyNext
    store :=
      match s.raft.passes with
      | none => s.store
      | some e => s.store.onLogEntryCommitted e }

end Server

/-! ## Texts as updates -/

namespace Database

def change (text : Bytes) : Option (Bytes × Option Bytes) :=
  let (input, type) := (StringStream.ofString text).word []
  if type = ascii "set" then
    let (input, key) := input.word []
    some (key, some (input.get.getline []).2)
  else if type = ascii "del" then some ((input.word []).2, none)
  else none

private theorem apply_eq_change (db : Database) (text : Bytes) :
    db.apply text = replay db (change text).toList := by
  unfold apply change
  dsimp only
  split
  · rfl
  split
  · rfl
  · rfl

def restore (db : Database) (texts : List Bytes) : Database := texts.foldl apply db

@[simp] theorem restore_nil (db : Database) : db.restore [] = db := rfl

theorem restore_append (db : Database) (texts rest : List Bytes) :
    db.restore (texts ++ rest) = (db.restore texts).restore rest :=
  List.foldl_append

@[simp] theorem restore_singleton (db : Database) (text : Bytes) :
    db.restore [text] = db.apply text := rfl

theorem restore_eq_replay (db : Database) (texts : List Bytes) :
    db.restore texts = replay db (texts.filterMap change) := by
  induction texts generalizing db with
  | nil => rfl
  | cons text texts ih =>
      have hone : (text :: texts).filterMap change =
          (change text).toList ++ texts.filterMap change := by
        cases hchange : change text with
        | none => simp [hchange]
        | some u => simp [hchange]
      rw [hone, replay_append, ← apply_eq_change, ← ih]
      rfl

theorem restore_take_of_notMem (db : Database) (texts : List Bytes) {i j : Nat} (hle : i ≤ j)
    {k : Bytes} (hk : k ∉ ((texts.drop i).filterMap change).map Prod.fst) :
    db.restore (texts.take j) k = db.restore (texts.take i) k := by
  have hsplit : texts.take j = texts.take i ++ (texts.drop i).take (j - i) := by
    rw [← List.take_add, Nat.add_sub_cancel' hle]
  rw [hsplit, restore_append, restore_eq_replay _ (List.take _ _), replay_of_notMem]
  intro hmem
  have hsub : ((texts.drop i).take (j - i)).Sublist (texts.drop i) := List.take_sublist _ _
  exact hk (((hsub.filterMap _).map Prod.fst).subset hmem)

/-- A part of the log that overlaps the entries of a snapshot is replayed over it. -/
theorem restore_overlap (db : Database) (texts : List Bytes) {i j : Nat} (hle : i ≤ j) :
    (db.restore (texts.take j)).restore (texts.drop i) = db.restore texts := by
  have hwhole : db.restore texts = (db.restore (texts.take i)).restore (texts.drop i) := by
    rw [← restore_append, List.take_append_drop]
  rw [hwhole, restore_eq_replay _ (texts.drop i), restore_eq_replay _ (texts.drop i),
    replay_eq_iff]
  intro k
  by_cases hk : k ∈ ((texts.drop i).filterMap change).map Prod.fst
  · exact .inl hk
  · exact .inr (restore_take_of_notMem db texts hle hk)

theorem restore_overlap_recreated :
    (Database.empty.restore [ascii "set k v", ascii "del k", ascii "set k w"]).restore
        [ascii "del k", ascii "set k w", ascii "set l x"] =
      Database.empty.restore
        [ascii "set k v", ascii "del k", ascii "set k w", ascii "set l x"] :=
  restore_overlap Database.empty
    [ascii "set k v", ascii "del k", ascii "set k w", ascii "set l x"]
    (i := 1) (j := 3) (by decide)

end Database

/-! ## The callback -/

/-- A command whose text does what it does. -/
structure PlainCommand (cmd : Command) : Prop where
  type : cmd.type = .set ∨ cmd.type = .del
  key_ne : cmd.key ≠ []
  key : IsWord cmd.key
  value : cmd.type = .set → 10 ∉ cmd.value

instance (cmd : Command) : Decidable (PlainCommand cmd) :=
  decidable_of_iff ((cmd.type = .set ∨ cmd.type = .del) ∧ cmd.key ≠ [] ∧ IsWord cmd.key ∧
      (cmd.type = .set → 10 ∉ cmd.value))
    ⟨fun ⟨h₁, h₂, h₃, h₄⟩ => ⟨h₁, h₂, h₃, h₄⟩, fun ⟨h₁, h₂, h₃, h₄⟩ => ⟨h₁, h₂, h₃, h₄⟩⟩

namespace Store

variable {s : Store}

@[simp] theorem write_db (session : Nat) (status : String) (data : Bytes) :
    (s.write session status data).db = s.db := rfl

private theorem insert_db (w : Waiting) : (s.insert w).db = s.db.insert w.cmd := by
  unfold insert
  split <;> simp_all [Database.insert]

theorem onLogEntryCommitted_db {e : LogEntry}
    (h : ∀ w ∈ s.find e.index, PlainCommand w.cmd ∧ e.data = logText w.cmd) :
    (s.onLogEntryCommitted e).db = s.db.apply e.data := by
  unfold onLogEntryCommitted
  split
  · rfl
  · rename_i w hw
    obtain ⟨hplain, hdata⟩ := h w hw
    rw [hdata, Database.apply_logText _ hplain.type hplain.key_ne hplain.key hplain.value]
    exact insert_db w

end Store

end Kv

/-! ## The apply loop -/

namespace Raft

variable {s : Raft}

theorem applyNext_some {e : LogEntry} (h : s.passes = some e) :
    s.lastApplied < s.commitIndex ∧ s.log.get (s.lastApplied + 1) = some e ∧ e.config = false ∧
      s.callback = none ∧
      s.applyNext = { s with
        lastApplied := s.lastApplied + 1
        applied := s.applied ++ [(s.lastApplied + 1, e)]
        callback := some e.index } := by
  unfold passes at h
  split at h
  · cases h
  · rename_i hcond
    simp only [not_or, not_not, not_le] at hcond
    obtain ⟨hdraining, hcallback, hlt⟩ := hcond
    obtain ⟨hget, hconfig⟩ := Option.filter_eq_some_iff.mp h
    have hconfig : e.config = false := by simpa using hconfig
    refine ⟨hlt, hget, hconfig, by simpa using hcallback, ?_⟩
    unfold applyNext
    rw [if_neg (by simp_all), if_neg (by omega)]
    simp [hget, hconfig]

theorem applyNext_none (h : s.passes = none) : s.applyNext.applied = s.applied ∧
    s.applyNext.callback = s.callback ∧
    (s.applyNext.lastApplied = s.lastApplied ∨
      s.lastApplied < s.commitIndex ∧ s.applyNext.lastApplied = s.lastApplied + 1 ∧
        ∀ e ∈ s.log.get (s.lastApplied + 1), e.config = true) := by
  unfold passes at h
  unfold applyNext
  split at h
  · rename_i hcond
    by_cases hbusy : ¬ s.draining = true ∨ s.callback.isSome = true
    · rw [if_pos hbusy]
      exact ⟨rfl, rfl, .inl rfl⟩
    · have hle : s.commitIndex ≤ s.lastApplied := by
        rcases hcond with h | h | h
        · exact absurd (.inl h) hbusy
        · exact absurd (.inr h) hbusy
        · exact h
      rw [if_neg hbusy, if_pos hle]
      exact ⟨rfl, rfl, .inl rfl⟩
  · rename_i hcond
    simp only [not_or, not_not, not_le] at hcond
    obtain ⟨hdraining, hcallback, hlt⟩ := hcond
    rw [if_neg (by simp_all), if_neg (by omega)]
    dsimp only
    cases hget : s.log.get (s.lastApplied + 1) with
    | none => exact ⟨rfl, rfl, .inr ⟨hlt, rfl, by simp⟩⟩
    | some e =>
        have hconfig : e.config = true := by
          rw [hget, Option.filter_eq_none_iff] at h
          simpa using h
        dsimp only
        rw [if_pos hconfig]
        exact ⟨rfl, rfl, .inr ⟨hlt, rfl, by simp [hconfig]⟩⟩

end Raft

end Draft
