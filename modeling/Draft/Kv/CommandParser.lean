import Draft.Foundation.Bytes

/-!
# Commands of the storage server

`command_parser.hpp` turns the bytes of a client into commands, one byte at a
time.  A session feeds it what it reads and starts anew after each command.
-/

namespace Draft.Kv

inductive CommandType where
  | get
  | set
  | del
  | unknown
  deriving DecidableEq, Repr

inductive ResultType where
  | good
  | bad
  | needMore
  deriving DecidableEq, Repr

structure Command where
  key : Bytes
  value : Bytes
  type : CommandType
  deriving DecidableEq, Repr

def Command.reset : Command := { key := [], value := [], type := .unknown }

namespace CommandParser

inductive State where
  | start
  | typeG
  | typeGe
  | typeS
  | typeSe
  | typeSet
  | typeD
  | typeDe
  | typeDone
  | readKey
  | readSetKey
  | readSetBlank
  | readSetValue
  | carriage
  deriving DecidableEq, Repr

end CommandParser

open CommandParser

structure CommandParser where
  state : State
  cmd : Command
  deriving DecidableEq, Repr

namespace CommandParser

/-- Both after a reset, as between a reply and the next read; a new session has reset neither. -/
def fresh : CommandParser := { state := .start, cmd := .reset }

def goto (p : CommandParser) (state : State) : ResultType × CommandParser :=
  (.needMore, { p with state })

def refuse (p : CommandParser) : ResultType × CommandParser := (.bad, p)

def pushKey (p : CommandParser) (c : UInt8) (state : State) : ResultType × CommandParser :=
  (.needMore, { state, cmd := { p.cmd with key := p.cmd.key ++ [c] } })

def pushValue (p : CommandParser) (c : UInt8) (state : State) : ResultType × CommandParser :=
  (.needMore, { state, cmd := { p.cmd with value := p.cmd.value ++ [c] } })

/-- The last letter of a command name was read. -/
def settle (p : CommandParser) (type : CommandType) (state : State) :
    ResultType × CommandParser :=
  (.needMore, { state, cmd := { p.cmd with type } })

/-- `do_parse`; the codes are those of the letters, of `\r` (13) and of `\n` (10). -/
def doParse (p : CommandParser) (c : UInt8) : ResultType × CommandParser :=
  match p.state with
  | .start =>
      if isBlank c then p.goto .start
      else if c = 103 then p.goto .typeG
      else if c = 115 then p.goto .typeS
      else if c = 100 then p.goto .typeD
      else p.refuse
  | .typeG => if c = 101 then p.goto .typeGe else p.refuse
  | .typeGe => if c = 116 then p.settle .get .typeDone else p.refuse
  | .typeS => if c = 101 then p.goto .typeSe else p.refuse
  | .typeSe => if c = 116 then p.settle .set .typeSet else p.refuse
  | .typeSet => if isBlank c then p.goto .typeSet else p.pushKey c .readSetKey
  | .typeD => if c = 101 then p.goto .typeDe else p.refuse
  | .typeDe => if c = 108 then p.settle .del .typeDone else p.refuse
  | .typeDone =>
      if c = 13 ∨ c = 10 then p.refuse
      else if isBlank c then p.goto .typeDone
      else p.pushKey c .readKey
  | .readSetKey =>
      if c = 13 ∨ c = 10 then p.refuse
      else if isBlank c then p.goto .readSetBlank
      else p.pushKey c .readSetKey
  | .readSetBlank =>
      if c = 13 ∨ c = 10 then p.refuse
      else if isBlank c then p.goto .readSetBlank
      else p.pushValue c .readSetValue
  | .readSetValue => if c = 13 then p.goto .carriage else p.pushValue c .readSetValue
  | .readKey => if c = 13 then p.goto .carriage else p.pushKey c .readKey
  | .carriage => if c = 10 then (.good, p) else p.refuse

/-- `parse`: up to the first result, with the bytes behind it. -/
def parse (p : CommandParser) : Bytes → ResultType × CommandParser × Bytes
  | [] => (.needMore, p, [])
  | c :: rest =>
      let r := p.doParse c
      if r.1 = .needMore then r.2.parse rest else (r.1, r.2, rest)

def Accepts (bytes : Bytes) (cmd : Command) : Prop :=
  (fresh.parse bytes).1 = .good ∧ (fresh.parse bytes).2.1.cmd = cmd

instance (bytes : Bytes) (cmd : Command) : Decidable (Accepts bytes cmd) :=
  inferInstanceAs (Decidable (_ ∧ _))

/-! ## What an accepted command looks like -/

def KeyRead (p : CommandParser) : Prop :=
  match p.state with
  | .readKey | .readSetKey | .readSetBlank | .readSetValue | .carriage => p.cmd.key ≠ []
  | _ => True

private theorem keyRead_doParse {p : CommandParser} (h : p.KeyRead) (c : UInt8) :
    (p.doParse c).2.KeyRead := by
  obtain ⟨state, cmd⟩ := p
  cases state <;> simp only [doParse] <;> split_ifs <;>
    simp_all [KeyRead, goto, refuse, pushKey, pushValue, settle]

private theorem good_doParse {p : CommandParser} {c : UInt8} (h : (p.doParse c).1 = .good) :
    p.state = .carriage ∧ (p.doParse c).2 = p := by
  obtain ⟨state, cmd⟩ := p
  cases state <;> simp only [doParse] at h ⊢ <;> split_ifs at h ⊢ <;>
    simp_all [goto, refuse, pushKey, pushValue, settle]

private theorem key_ne_nil_of_parse {p : CommandParser} (h : p.KeyRead) (bytes : Bytes)
    (hgood : (p.parse bytes).1 = .good) : (p.parse bytes).2.1.cmd.key ≠ [] := by
  induction bytes generalizing p with
  | nil => cases hgood
  | cons c rest ih =>
      have hnext := keyRead_doParse h c
      simp only [parse] at hgood ⊢
      split at hgood
      · rename_i hmore
        rw [if_pos hmore]
        exact ih hnext hgood
      · rename_i hmore
        rw [if_neg hmore]
        obtain ⟨hstate, hsame⟩ := good_doParse hgood
        simpa [hsame, KeyRead, hstate] using h

theorem Accepts.key_ne_nil {bytes : Bytes} {cmd : Command} (h : Accepts bytes cmd) :
    cmd.key ≠ [] := by
  have hfresh : fresh.KeyRead := trivial
  simpa [h.2] using key_ne_nil_of_parse hfresh bytes h.1

end CommandParser

end Draft.Kv
