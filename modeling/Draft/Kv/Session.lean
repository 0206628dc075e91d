import Draft.Kv.CommandParser

/-!
# The command stream of a client

A session parses what each read brings.  It answers a command or an error before
it reads on, with the parser reset, and the answered bytes leave the buffer
together with everything behind them.
-/

namespace Draft.Kv

inductive Event where
  /-- `handle_command` gets the command. -/
  | command (cmd : Command)
  /-- The reply is `INVALID_COMMAND`. -/
  | invalid
  deriving DecidableEq, Repr

namespace CommandParser

/-- `parse_command` of one read, up to the reset by `on_write`. -/
def read (p : CommandParser) (buffer : Bytes) : CommandParser × List Event :=
  match p.parse buffer with
  | (.needMore, q, _) => (q, [])
  | (.good, q, _) => (fresh, [.command q.cmd])
  | (.bad, _, _) => (fresh, [.invalid])

def discarded (p : CommandParser) (buffer : Bytes) : Bytes :=
  (p.parse buffer).2.2

def after (p : CommandParser) : List Bytes → CommandParser
  | [] => p
  | buffer :: reads => (p.read buffer).1.after reads

def events (p : CommandParser) : List Bytes → List Event
  | [] => []
  | buffer :: reads => (p.read buffer).2 ++ (p.read buffer).1.events reads

/-- In each read only blanks follow a command or an error. -/
def NothingBehind (p : CommandParser) : List Bytes → Prop
  | [] => True
  | buffer :: reads =>
      (∀ c ∈ p.discarded buffer, isBlank c) ∧ (p.read buffer).1.NothingBehind reads

def bytewise (bytes : Bytes) : List Bytes := bytes.map fun c => [c]

variable {p : CommandParser} {c : UInt8} {buffer bytes : Bytes} {reads : List Bytes}

@[simp] theorem bytewise_nil : bytewise [] = [] := rfl

@[simp] theorem bytewise_cons : bytewise (c :: bytes) = [c] :: bytewise bytes := rfl

@[simp] theorem bytewise_append (xs ys : Bytes) :
    bytewise (xs ++ ys) = bytewise xs ++ bytewise ys := List.map_append

private theorem after_append (xs ys : List Bytes) : p.after (xs ++ ys) = (p.after xs).after ys := by
  induction xs generalizing p with
  | nil => rfl
  | cons buffer xs ih => exact ih

private theorem events_append (xs ys : List Bytes) :
    p.events (xs ++ ys) = p.events xs ++ (p.after xs).events ys := by
  induction xs generalizing p with
  | nil => rfl
  | cons buffer xs ih => simp [events, after, ih]

/-! ## One read -/

private theorem parse_of_more (h : (p.doParse c).1 = .needMore) :
    p.parse (c :: bytes) = (p.doParse c).2.parse bytes := by
  simp [parse, h]

private theorem parse_of_result (h : (p.doParse c).1 ≠ .needMore) :
    p.parse (c :: bytes) = ((p.doParse c).1, (p.doParse c).2, bytes) := by
  simp [parse, h]

private theorem read_of_more (h : (p.doParse c).1 = .needMore) :
    p.read [c] = ((p.doParse c).2, []) := by
  rw [read, parse_of_more h]
  rfl

private theorem read_of_result (h : (p.doParse c).1 ≠ .needMore) :
    p.read (c :: bytes) = p.read [c] := by
  rw [read, read, parse_of_result h, parse_of_result h]
  cases (p.doParse c).1 <;> rfl

private theorem read_fresh (h : (p.doParse c).1 ≠ .needMore) : (p.read [c]).1 = fresh := by
  cases hresult : (p.doParse c).1 <;> simp_all [read, parse]

private theorem read_bytewise (buffer : Bytes) :
    p.events (bytewise buffer) =
        (p.read buffer).2 ++ (p.read buffer).1.events (bytewise (p.discarded buffer)) ∧
      p.after (bytewise buffer) =
        (p.read buffer).1.after (bytewise (p.discarded buffer)) := by
  induction buffer generalizing p with
  | nil => simp [events, after, read, parse, discarded]
  | cons c rest ih =>
      by_cases hmore : (p.doParse c).1 = .needMore
      · have hread : p.read (c :: rest) = (p.doParse c).2.read rest := by
          simp [read, parse_of_more hmore]
        have hrest : p.discarded (c :: rest) = (p.doParse c).2.discarded rest := by
          simp [discarded, parse_of_more hmore]
        simpa [events, after, read_of_more hmore, hread, hrest] using ih
      · have hrest : p.discarded (c :: rest) = rest := by
          simp [discarded, parse_of_result hmore]
        simp [events, after, read_of_result hmore, hrest]

private theorem discarded_fresh (h : p.discarded buffer ≠ []) : (p.read buffer).1 = fresh := by
  induction buffer generalizing p with
  | nil => exact absurd rfl h
  | cons c rest ih =>
      by_cases hmore : (p.doParse c).1 = .needMore
      · have hread : p.read (c :: rest) = (p.doParse c).2.read rest := by
          simp [read, parse_of_more hmore]
        rw [hread]
        refine ih ?_
        simpa [discarded, parse_of_more hmore] using h
      · rw [read_of_result hmore, read_fresh hmore]

/-! ## Blanks -/

private theorem doParse_blank (h : isBlank c) : fresh.doParse c = (.needMore, fresh) := by
  simp [doParse, fresh, goto, h]

private theorem blanks_bytewise (h : ∀ c ∈ bytes, isBlank c) :
    fresh.events (bytewise bytes) = [] ∧ fresh.after (bytewise bytes) = fresh := by
  induction bytes with
  | nil => exact ⟨rfl, rfl⟩
  | cons c rest ih =>
      have hblank := doParse_blank (h c (by simp))
      have hread := read_of_more (congrArg Prod.fst hblank)
      rw [hblank] at hread
      simpa [events, after, hread] using ih fun d hd => h d (List.mem_cons_of_mem _ hd)

private theorem start_of_doParse (h : (p.doParse c).1 = .needMore)
    (hstart : (p.doParse c).2.state = .start) : p.state = .start ∧ isBlank c := by
  obtain ⟨state, cmd⟩ := p
  cases state <;> simp only [doParse] at h hstart ⊢ <;> split_ifs at h hstart <;>
    simp_all [goto, refuse, pushKey, pushValue, settle]

private theorem blank_of_start (hevents : p.events (bytewise bytes) = [])
    (hstart : (p.after (bytewise bytes)).state = .start) :
    p.state = .start ∧ ∀ c ∈ bytes, isBlank c := by
  induction bytes generalizing p with
  | nil => exact ⟨hstart, by simp⟩
  | cons c rest ih =>
      have hmore : (p.doParse c).1 = .needMore := by
        cases hresult : (p.doParse c).1 <;> simp_all [events, read, parse]
      simp only [bytewise_cons, events, after, read_of_more hmore, List.nil_append] at hevents hstart
      obtain ⟨hnext, hblank⟩ := ih hevents hstart
      obtain ⟨hstate, hc⟩ := start_of_doParse hmore hnext
      exact ⟨hstate, by simpa using ⟨hc, hblank⟩⟩

def telling : State → UInt8
  | .start => 103
  | .typeG | .typeS | .typeD => 101
  | .typeGe | .typeSe => 116
  | .typeDe => 108
  | .carriage => 10
  | _ => 120

private theorem start_of_same (h : ∀ c, fresh.events [[c]] = p.events [[c]]) : p.state = .start := by
  have htold := h (telling p.state)
  obtain ⟨state, cmd⟩ := p
  cases state <;>
    simp [events, read, parse, doParse, fresh, telling, goto, refuse, pushKey, pushValue, settle,
      isBlank] at htold ⊢

/-! ## Whole streams -/

private theorem after_blank (h : ∀ c ∈ p.discarded buffer, isBlank c) :
    p.events (bytewise buffer) = (p.read buffer).2 ∧
      p.after (bytewise buffer) = (p.read buffer).1 := by
  obtain ⟨hevents, hafter⟩ := p.read_bytewise buffer
  by_cases hnil : p.discarded buffer = []
  · simpa [hnil, events, after] using And.intro hevents hafter
  · obtain ⟨hnone, hfresh⟩ := blanks_bytewise h
    rw [discarded_fresh hnil] at hevents hafter ⊢
    simpa [hnone, hfresh] using And.intro hevents hafter

private theorem events_bytewise (h : p.NothingBehind reads) :
    p.events (bytewise reads.flatten) = p.events reads ∧
      p.after (bytewise reads.flatten) = p.after reads := by
  induction reads generalizing p with
  | nil => exact ⟨rfl, rfl⟩
  | cons buffer reads ih =>
      obtain ⟨hevents, hafter⟩ := after_blank h.1
      obtain ⟨hrest, hlast⟩ := ih h.2
      simp [events_append, after_append, events, after, hevents, hafter, hrest, hlast]

private theorem nothingBehind_take (h : p.NothingBehind reads) (n : Nat) :
    p.NothingBehind (reads.take n) := by
  induction reads generalizing p n with
  | nil => simpa using h
  | cons buffer reads ih =>
      cases n with
      | zero => trivial
      | succ n => exact ⟨h.1, ih h.2 n⟩

private theorem nothingBehind_of_same
    (h : ∀ n bytes, p.events (reads.take n ++ bytewise bytes) =
      p.events (bytewise ((reads.take n).flatten ++ bytes))) : p.NothingBehind reads := by
  induction reads generalizing p with
  | nil => trivial
  | cons buffer reads ih =>
      have hblank : ∀ c ∈ p.discarded buffer, isBlank c := by
        by_cases hnil : p.discarded buffer = []
        · simp [hnil]
        obtain ⟨hevents, hafter⟩ := p.read_bytewise buffer
        rw [discarded_fresh hnil] at hevents hafter
        have hsame : ∀ bytes, fresh.events (bytewise bytes) =
            fresh.events (bytewise (p.discarded buffer)) ++
              (fresh.after (bytewise (p.discarded buffer))).events (bytewise bytes) := by
          intro bytes
          simpa [events, events_append, hevents, hafter, discarded_fresh hnil] using h 1 bytes
        have hnone : fresh.events (bytewise (p.discarded buffer)) = [] := by
          simpa [events] using (hsame []).symm
        simp only [hnone, List.nil_append] at hsame
        exact (blank_of_start hnone (start_of_same fun c => hsame [c])).2
      refine ⟨hblank, ih fun n bytes => ?_⟩
      obtain ⟨hevents, hafter⟩ := after_blank hblank
      simpa [events, events_append, hevents, hafter] using h (n + 1) bytes

/--
However far a client has come with some reads, and whatever bytes follow, it is
served as if its bytes came one at a time, exactly when no read has more than
blanks behind a command or an error.  The parser may start in any state, since
a new session has not reset it.
-/
theorem stream_independent (p : CommandParser) (reads : List Bytes) :
    (∀ n bytes, p.events (reads.take n ++ bytewise bytes) =
        p.events (bytewise ((reads.take n).flatten ++ bytes))) ↔
      p.NothingBehind reads := by
  constructor
  · exact nothingBehind_of_same
  · intro h n bytes
    obtain ⟨hevents, hafter⟩ := events_bytewise (nothingBehind_take h n)
    rw [bytewise_append, events_append, events_append, hevents, hafter]

/-- Two commands in one read of a session that has answered before. -/
theorem stream_dependent :
    ¬ ∀ (p : CommandParser) (reads : List Bytes), (∀ buffer ∈ reads, buffer.length ≤ 8192) →
      p.events reads = p.events (bytewise reads.flatten) := by
  intro h
  exact absurd (h fresh [ascii "get a\r\nget b\r\n"] (by decide)) (by decide)

end CommandParser

end Draft.Kv
