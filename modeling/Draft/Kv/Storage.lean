import Mathlib.Data.List.TakeWhile
import Mathlib.Logic.Function.Basic
import Draft.Kv.CommandParser

/-!
# The database of the storage server

A leader changes its database by the command of the session that is waiting for
the entry (`insert`), a follower by the text of the entry (`apply`).
-/

namespace Draft.Kv

/-- `database_t`, a hash map from keys to values. -/
abbrev Database := Bytes → Option Bytes

def Database.empty : Database := fun _ => none

/-! ## Formatted input -/

/-- A `std::istringstream`: the bytes not read yet, and `good()`. -/
structure StringStream where
  rest : Bytes
  good : Bool
  deriving DecidableEq, Repr

namespace StringStream

def ofString (text : Bytes) : StringStream := { rest := text, good := true }

/-- `operator>>` into a string: one word, after any white space. -/
def word (input : StringStream) (old : Bytes) : StringStream × Bytes :=
  let body := input.rest.dropWhile isSpace
  if input.good = false then (input, old)
  else if body = [] then ({ rest := [], good := false }, old)
  else
    let rest := body.dropWhile fun c => !isSpace c
    ({ rest, good := rest ≠ [] }, body.takeWhile fun c => !isSpace c)

def get (input : StringStream) : StringStream :=
  if input.good = false then input
  else
    match input.rest with
    | [] => { input with good := false }
    | _ :: rest => { input with rest }

def getline (input : StringStream) (old : Bytes) : StringStream × Bytes :=
  if input.good = false then (input, old)
  else
    match input.rest.dropWhile (· ≠ 10) with
    | [] => ({ rest := [], good := false }, input.rest)
    | _ :: rest => ({ input with rest }, input.rest.takeWhile (· ≠ 10))

end StringStream

/-! ## The two changes -/

def logText (cmd : Command) : Bytes :=
  (if cmd.type = .set then ascii "set " else ascii "del ") ++ cmd.key ++
    if cmd.type = .set then ascii " " ++ cmd.value else []

namespace Database

/-- `insert`, from the command of the session. -/
def insert (db : Database) (cmd : Command) : Database :=
  match cmd.type with
  | .get | .unknown => db
  | .set => Function.update db cmd.key (some cmd.value)
  | .del => Function.update db cmd.key none

/-- `apply`, from the text of the entry. -/
def apply (db : Database) (text : Bytes) : Database :=
  let (input, type) := (StringStream.ofString text).word []
  if type = ascii "set" then
    let (input, key) := input.word []
    let (_, value) := input.get.getline []
    Function.update db key (some value)
  else if type = ascii "del" then
    let (_, key) := input.word []
    Function.update db key none
  else db

end Database

/-! ## Reading the text back -/

def IsWord (key : Bytes) : Prop := ∀ c ∈ key, isSpace c = false

instance (key : Bytes) : Decidable (IsWord key) := List.decidableBAll _ key

namespace StringStream

private theorem word_isWord (input : StringStream) {old : Bytes} (h : IsWord old) :
    IsWord (input.word old).2 := by
  unfold word
  dsimp only
  split
  · exact h
  split
  · exact h
  · intro c hc
    simpa using List.mem_takeWhile_imp hc

private theorem getline_line (input : StringStream) {old : Bytes} (h : 10 ∉ old) :
    10 ∉ (input.getline old).2 := by
  unfold getline
  split
  · exact h
  split
  · rename_i hnil
    intro hmem
    simpa using List.dropWhile_eq_nil_iff.mp hnil 10 hmem
  · intro hmem
    simpa using List.mem_takeWhile_imp hmem

private theorem word_key {key tail : Bytes} (h : IsWord key) (hne : key ≠ [])
    (htail : ∀ c ∈ tail.head?, isSpace c) (old : Bytes) :
    word { rest := 32 :: key ++ tail, good := true } old =
      ({ rest := tail, good := tail ≠ [] }, key) := by
  have hspace : (32 :: (key ++ tail)).dropWhile isSpace = key ++ tail := by
    cases key with
    | nil => exact absurd rfl hne
    | cons c key =>
        have hblank : isSpace 32 = true := rfl
        have hc : isSpace c = false := h c (by simp)
        simp [hblank, hc]
  have hkey : ∀ c ∈ key, (!isSpace c) = true := fun c hc => by simp [h c hc]
  have hstop : tail.takeWhile (fun c => !isSpace c) = [] ∧
      tail.dropWhile (fun c => !isSpace c) = tail := by
    cases tail with
    | nil => simp
    | cons c tail =>
        have hc : isSpace c = true := htail c (by simp)
        simp [hc]
  simp [word, hspace, hne, List.takeWhile_append_of_pos hkey, List.dropWhile_append_of_pos hkey,
    hstop.1, hstop.2]

private theorem getline_value {value : Bytes} (h : 10 ∉ value) (old : Bytes) :
    (getline { rest := value, good := true } old).2 = value := by
  have hall : value.dropWhile (· ≠ 10) = [] := by
    rw [List.dropWhile_eq_nil_iff]
    intro c hc
    simpa using ne_of_mem_of_not_mem hc h
  simp only [getline, hall]
  rfl

private theorem word_set (text : Bytes) :
    (ofString (ascii "set " ++ text)).word [] =
      ({ rest := 32 :: text, good := true }, ascii "set") := by
  rfl

private theorem word_del (text : Bytes) :
    (ofString (ascii "del " ++ text)).word [] =
      ({ rest := 32 :: text, good := true }, ascii "del") := by
  rfl

end StringStream

open StringStream CommandParser

namespace Database

variable (db : Database)

private theorem apply_set (key value : Bytes) :
    db.apply (logText { key, value, type := .set }) =
      let r := word { rest := 32 :: key ++ (32 :: value), good := true } []
      Function.update db r.2 (some (r.1.get.getline []).2) := by
  have htext : logText { key, value, type := .set } =
      ascii "set " ++ (key ++ (32 :: value)) := by
    simp [logText, ascii]
  rw [htext, apply, word_set]
  rfl

private theorem apply_del (key value : Bytes) :
    db.apply (logText { key, value, type := .del }) =
      Function.update db (word { rest := 32 :: key, good := true } []).2 none := by
  have htext : logText { key, value, type := .del } = ascii "del " ++ key := by
    simp [logText]
  rw [htext, apply, word_del]
  rfl

theorem apply_logText {cmd : Command} (htype : cmd.type = .set ∨ cmd.type = .del)
    (hne : cmd.key ≠ []) (hkey : IsWord cmd.key) (hvalue : cmd.type = .set → 10 ∉ cmd.value) :
    db.apply (logText cmd) = db.insert cmd := by
  obtain ⟨key, value, type⟩ := cmd
  obtain rfl | rfl := htype
  · have hread : (getline (StringStream.get { rest := 32 :: value, good := true }) []).2 = value :=
      getline_value (hvalue rfl) []
    rw [apply_set, word_key hkey hne (by simp [isSpace])]
    simp [hread, insert]
  · have hread := word_key hkey hne (show ∀ c ∈ ([] : Bytes).head?, isSpace c by simp) []
    rw [List.append_nil] at hread
    rw [apply_del, hread]
    rfl

/--
A follower changes what the leader changes: no white space in the key, no line
break in the value.
-/
theorem apply_eq_insert {bytes : Bytes} {cmd : Command} (haccepts : Accepts bytes cmd)
    (htype : cmd.type = .set ∨ cmd.type = .del) :
    (∀ db : Database, db.apply (logText cmd) = db.insert cmd) ↔
      IsWord cmd.key ∧ (cmd.type = .set → 10 ∉ cmd.value) := by
  have hne := haccepts.key_ne_nil
  obtain ⟨key, value, type⟩ := cmd
  have hword : ∀ input : StringStream, IsWord (input.word []).2 := fun input =>
    input.word_isWord (by simp [IsWord])
  obtain rfl | rfl := htype
  · constructor
    · intro h
      have hat := congrFun (h .empty) key
      rw [apply_set] at hat
      simp only [insert, Function.update_self] at hat
      set r := word { rest := 32 :: key ++ (32 :: value), good := true } [] with hr
      have hkey : key = r.2 := by
        by_contra hdiff
        rw [Function.update_of_ne hdiff] at hat
        cases hat
      rw [← hkey, Function.update_self, Option.some.injEq] at hat
      refine ⟨hkey ▸ hword _, fun _ => ?_⟩
      rw [← hat]
      exact getline_line _ (by simp)
    · rintro ⟨hkey, hvalue⟩ db
      exact apply_logText db (.inl rfl) hne hkey hvalue
  · constructor
    · intro h
      have hat := congrFun (h fun _ => some []) key
      rw [apply_del] at hat
      simp only [insert, Function.update_self] at hat
      have hkey : key = (word { rest := 32 :: key, good := true } []).2 := by
        by_contra hdiff
        rw [Function.update_of_ne hdiff] at hat
        cases hat
      exact ⟨hkey ▸ hword _, nofun⟩
    · rintro ⟨hkey, hvalue⟩ db
      exact apply_logText db (.inr rfl) hne hkey hvalue

theorem apply_eq_insert_set :
    empty.apply (ascii "set k v w") =
      empty.insert { key := ascii "k", value := ascii "v w", type := .set } := by
  have haccepts : Accepts (ascii "set k  v w\r\n")
      { key := ascii "k", value := ascii "v w", type := .set } := by decide
  exact (apply_eq_insert haccepts (.inl rfl)).mpr (by decide) empty

/-- The follower deletes the first word of the key. -/
theorem apply_ne_insert :
    ¬ ∀ (bytes : Bytes) (cmd : Command), Accepts bytes cmd → cmd.type = .set ∨ cmd.type = .del →
      ∀ db : Database, db.apply (logText cmd) = db.insert cmd := by
  intro h
  have hsame := h (ascii "del a b\r\n") { key := ascii "a b", value := [], type := .del }
    (by decide) (by decide) (fun _ => some [])
  exact absurd (congrFun hsame (ascii "a b")) (by decide)

end Database

end Draft.Kv
