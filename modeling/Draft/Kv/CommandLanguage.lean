import Mathlib.Data.List.TakeWhile
import Draft.Kv.CommandParser

/-!
# The language of the command parser

For each state of the parser: which bytes lead from it to a command that ends
with the last of them, and which command that is.
-/

namespace Draft.Kv

def isPlain (c : UInt8) : Bool := !isBlank c && c ≠ 13 && c ≠ 10

namespace CommandParser

variable {p q : CommandParser} {c : UInt8} {bytes : Bytes} {cmd : Command}

def Ends (p : CommandParser) (bytes : Bytes) (q : CommandParser) : Prop :=
  p.parse bytes = (.good, q, [])

private theorem not_ends_nil : ¬ Ends p [] q := by simp [Ends, parse]

private theorem ends_more {r : CommandParser} (h : p.doParse c = (.needMore, r)) :
    Ends p (c :: bytes) q ↔ Ends r bytes q := by
  simp [Ends, parse, h]

private theorem not_ends_bad (h : (p.doParse c).1 = .bad) : ¬ Ends p (c :: bytes) q := by
  simp [Ends, parse, h]

/-! ## Loops -/

private theorem ends_carriage :
    Ends ⟨.carriage, cmd⟩ bytes q ↔ bytes = [10] ∧ q = ⟨.carriage, cmd⟩ := by
  cases bytes with
  | nil => simp [not_ends_nil]
  | cons c rest =>
      by_cases hc : c = 10
      · subst hc
        simp only [Ends, parse, doParse, if_pos, reduceCtorEq, if_false, Prod.mk.injEq, true_and,
          List.cons.injEq]
        exact ⟨fun h => ⟨h.2, h.1.symm⟩, fun h => ⟨h.2.symm, h.1⟩⟩
      · have hbad : (doParse ⟨.carriage, cmd⟩ c).1 = .bad := by simp [doParse, hc, refuse]
        simp [not_ends_bad hbad, hc]

private theorem ends_line (state : State) (f : Bytes → Command)
    (hpush : ∀ acc c, c ≠ 13 → doParse ⟨state, f acc⟩ c = (.needMore, ⟨state, f (acc ++ [c])⟩))
    (hreturn : ∀ acc, doParse ⟨state, f acc⟩ 13 = (.needMore, ⟨.carriage, f acc⟩))
    (acc bytes : Bytes) : Ends ⟨state, f acc⟩ bytes q ↔
      ∃ tail, 13 ∉ tail ∧ bytes = tail ++ [13, 10] ∧ q = ⟨.carriage, f (acc ++ tail)⟩ := by
  induction bytes generalizing acc with
  | nil => simp [not_ends_nil]
  | cons c rest ih =>
      by_cases hc : c = 13
      · subst hc
        rw [ends_more (hreturn acc), ends_carriage]
        constructor
        · rintro ⟨rfl, rfl⟩
          exact ⟨[], by simp⟩
        · rintro ⟨tail, htail, hbytes, rfl⟩
          cases tail with
          | nil => simpa using hbytes
          | cons d tail =>
              obtain ⟨rfl, -⟩ := by simpa using hbytes
              simp at htail
      · rw [ends_more (hpush acc c hc), ih]
        constructor
        · rintro ⟨tail, htail, rfl, rfl⟩
          exact ⟨c :: tail, by simp [htail, Ne.symm hc], by simp⟩
        · rintro ⟨tail, htail, hbytes, rfl⟩
          cases tail with
          | nil => simp [hc] at hbytes
          | cons d tail =>
              simp only [List.cons_append, List.cons.injEq] at hbytes
              obtain ⟨rfl, rfl⟩ := hbytes
              simp only [List.mem_cons, not_or] at htail
              exact ⟨tail, htail.2, rfl, by simp⟩

private theorem ends_blanks (h : ∀ c, isBlank c → p.doParse c = (.needMore, p)) :
    Ends p bytes q ↔ ∃ sep rest, (∀ c ∈ sep, isBlank c) ∧ bytes = sep ++ rest ∧
      (∀ c ∈ rest.head?, isBlank c = false) ∧ Ends p rest q := by
  have skip : ∀ sep rest, (∀ c ∈ sep, isBlank c) → (Ends p (sep ++ rest) q ↔ Ends p rest q) := by
    intro sep rest hsep
    induction sep with
    | nil => rfl
    | cons c sep ih =>
        rw [List.cons_append, ends_more (h c (hsep c (by simp)))]
        exact ih fun d hd => hsep d (List.mem_cons_of_mem _ hd)
  constructor
  · intro hends
    have hsplit := List.takeWhile_append_dropWhile (p := isBlank) (l := bytes)
    have hsep : ∀ c ∈ bytes.takeWhile isBlank, isBlank c := fun c hc => List.mem_takeWhile_imp hc
    refine ⟨_, _, hsep, hsplit.symm, fun c hc => ?_, ?_⟩
    · have := List.head?_dropWhile_not isBlank bytes
      rw [Option.mem_def] at hc
      rw [hc] at this
      simpa using this
    · rw [← skip _ _ hsep, hsplit]
      exact hends
  · rintro ⟨sep, rest, hsep, rfl, -, hends⟩
    exact (skip sep rest hsep).mpr hends

/-! ## Values and keys -/

private theorem isPlain_iff : isPlain c = true ↔ isBlank c = false ∧ c ≠ 13 ∧ c ≠ 10 := by
  simp [isPlain, and_assoc]

def TakesValue (cmd : Command) (bytes : Bytes) (q : CommandParser) : Prop :=
  ∃ d tail, isPlain d ∧ 13 ∉ tail ∧ bytes = d :: (tail ++ [13, 10]) ∧
    q = ⟨.carriage, { cmd with value := cmd.value ++ d :: tail }⟩

private theorem ends_readSetBlank : Ends ⟨.readSetBlank, cmd⟩ bytes q ↔
    ∃ gap rest, (∀ c ∈ gap, isBlank c) ∧ bytes = gap ++ rest ∧ TakesValue cmd rest q := by
  have hskip : ∀ c, isBlank c →
      doParse ⟨.readSetBlank, cmd⟩ c = (.needMore, ⟨.readSetBlank, cmd⟩) := by
    intro c hc
    have hline : ¬ (c = 13 ∨ c = 10) := by
      rintro (rfl | rfl) <;> cases hc
    simp [doParse, hline, hc, goto]
  have hfirst : ∀ rest, (∀ c ∈ rest.head?, isBlank c = false) →
      (Ends ⟨.readSetBlank, cmd⟩ rest q ↔ TakesValue cmd rest q) := by
    intro rest hhead
    cases rest with
    | nil => simp [not_ends_nil, TakesValue]
    | cons d rest =>
        have hblank : isBlank d = false := hhead d (by simp)
        by_cases hline : d = 13 ∨ d = 10
        · have hbad : (doParse ⟨.readSetBlank, cmd⟩ d).1 = .bad := by
            simp [doParse, hline, refuse]
          simp only [not_ends_bad hbad, false_iff]
          rintro ⟨x, tail, hx, -, hbytes, -⟩
          obtain ⟨rfl, -⟩ := List.cons.inj hbytes
          rw [isPlain_iff] at hx
          rcases hline with rfl | rfl <;> simp at hx
        · have hplain : isPlain d = true := by
            rw [isPlain_iff]
            exact ⟨hblank, fun h => hline (.inl h), fun h => hline (.inr h)⟩
          have hpush : doParse ⟨.readSetBlank, cmd⟩ d =
              (.needMore, ⟨.readSetValue, { cmd with value := cmd.value ++ [d] }⟩) := by
            simp [doParse, hline, hblank, pushValue]
          rw [ends_more hpush]
          have hline := ends_line (q := q) .readSetValue (fun value => { cmd with value })
            (fun acc c hc => by simp [doParse, hc, pushValue])
            (fun acc => by simp [doParse, goto]) (cmd.value ++ [d]) rest
          rw [hline]
          constructor
          · rintro ⟨tail, htail, rfl, rfl⟩
            exact ⟨d, tail, hplain, htail, rfl, by simp⟩
          · rintro ⟨x, tail, -, htail, hbytes, rfl⟩
            obtain ⟨rfl, rfl⟩ := List.cons.inj hbytes
            exact ⟨tail, htail, rfl, by simp⟩
  rw [ends_blanks hskip]
  constructor
  · rintro ⟨gap, rest, hgap, rfl, hhead, hends⟩
    exact ⟨gap, rest, hgap, rfl, (hfirst rest hhead).mp hends⟩
  · rintro ⟨gap, rest, hgap, rfl, hvalue⟩
    have hhead : ∀ c ∈ rest.head?, isBlank c = false := by
      obtain ⟨d, tail, hd, -, rfl, -⟩ := hvalue
      intro c hc
      obtain rfl : d = c := by simpa using hc
      exact (isPlain_iff.mp hd).1
    exact ⟨gap, rest, hgap, rfl, hhead, (hfirst rest hhead).mpr hvalue⟩

private theorem ends_readSetKey : Ends ⟨.readSetKey, cmd⟩ bytes q ↔
    ∃ key gap rest, (∀ c ∈ key, isPlain c) ∧ (∀ c ∈ gap, isBlank c) ∧ gap ≠ [] ∧
      bytes = key ++ (gap ++ rest) ∧
      TakesValue { cmd with key := cmd.key ++ key } rest q := by
  induction bytes generalizing cmd with
  | nil =>
      simp only [not_ends_nil, false_iff]
      rintro ⟨key, gap, rest, -, -, hgap, hbytes, -⟩
      simp_all
  | cons c bytes ih =>
      by_cases hline : c = 13 ∨ c = 10
      · have hbad : (doParse ⟨.readSetKey, cmd⟩ c).1 = .bad := by simp [doParse, hline, refuse]
        simp only [not_ends_bad hbad, false_iff]
        rintro ⟨key, gap, rest, hkey, hgap, hne, hbytes, -⟩
        cases key with
        | nil =>
            obtain ⟨d, gap, rfl⟩ := List.exists_cons_of_ne_nil hne
            obtain ⟨rfl, -⟩ := List.cons.inj hbytes
            have hblank := hgap c (by simp)
            rcases hline with rfl | rfl <;> cases hblank
        | cons d key =>
            obtain ⟨rfl, -⟩ := List.cons.inj hbytes
            have hplain := isPlain_iff.mp (hkey c (by simp))
            rcases hline with rfl | rfl <;> simp at hplain
      by_cases hblank : isBlank c = true
      · have hgo : doParse ⟨.readSetKey, cmd⟩ c = (.needMore, ⟨.readSetBlank, cmd⟩) := by
          simp [doParse, hline, hblank, goto]
        rw [ends_more hgo, ends_readSetBlank]
        constructor
        · rintro ⟨gap, rest, hgap, rfl, hvalue⟩
          refine ⟨[], c :: gap, rest, by simp, ?_, by simp, by simp, by simpa using hvalue⟩
          simpa [hblank] using hgap
        · rintro ⟨key, gap, rest, hkey, hgap, hne, hbytes, hvalue⟩
          cases key with
          | nil =>
              obtain ⟨d, gap, rfl⟩ := List.exists_cons_of_ne_nil hne
              obtain ⟨rfl, rfl⟩ := List.cons.inj hbytes
              exact ⟨gap, rest, fun d hd => hgap d (List.mem_cons_of_mem _ hd), rfl,
                by simpa using hvalue⟩
          | cons d key =>
              obtain ⟨rfl, -⟩ := List.cons.inj hbytes
              have hplain := isPlain_iff.mp (hkey c (by simp))
              simp [hblank] at hplain
      · have hpush : doParse ⟨.readSetKey, cmd⟩ c =
            (.needMore, ⟨.readSetKey, { cmd with key := cmd.key ++ [c] }⟩) := by
          simp [doParse, hline, hblank, pushKey]
        have hplain : isPlain c = true := by
          rw [isPlain_iff]
          exact ⟨by simpa using hblank, fun h => hline (.inl h), fun h => hline (.inr h)⟩
        rw [ends_more hpush, ih]
        constructor
        · rintro ⟨key, gap, rest, hkey, hgap, hne, rfl, hvalue⟩
          refine ⟨c :: key, gap, rest, ?_, hgap, hne, by simp, by simpa using hvalue⟩
          simpa [hplain] using hkey
        · rintro ⟨key, gap, rest, hkey, hgap, hne, hbytes, hvalue⟩
          cases key with
          | nil =>
              obtain ⟨d, gap, rfl⟩ := List.exists_cons_of_ne_nil hne
              obtain ⟨rfl, -⟩ := List.cons.inj hbytes
              exact absurd (hgap c (by simp)) hblank
          | cons d key =>
              obtain ⟨rfl, rfl⟩ := List.cons.inj hbytes
              exact ⟨key, gap, rest, fun d hd => hkey d (List.mem_cons_of_mem _ hd), hgap, hne,
                rfl, by simpa using hvalue⟩

/-- What follows the name `set`: any byte but a blank may begin the key. -/
def TakesSet (cmd : Command) (bytes : Bytes) (q : CommandParser) : Prop :=
  ∃ c key gap rest, isBlank c = false ∧ (∀ d ∈ key, isPlain d) ∧ (∀ d ∈ gap, isBlank d) ∧
    gap ≠ [] ∧ bytes = c :: (key ++ (gap ++ rest)) ∧
    TakesValue { cmd with key := cmd.key ++ c :: key } rest q

private theorem ends_typeSet : Ends ⟨.typeSet, cmd⟩ bytes q ↔
    ∃ sep rest, (∀ c ∈ sep, isBlank c) ∧ bytes = sep ++ rest ∧ TakesSet cmd rest q := by
  have hfirst : ∀ rest, (∀ c ∈ rest.head?, isBlank c = false) →
      (Ends ⟨.typeSet, cmd⟩ rest q ↔ TakesSet cmd rest q) := by
    intro rest hhead
    cases rest with
    | nil => simp [not_ends_nil, TakesSet]
    | cons c rest =>
        have hblank : isBlank c = false := hhead c (by simp)
        have hpush : doParse ⟨.typeSet, cmd⟩ c =
            (.needMore, ⟨.readSetKey, { cmd with key := cmd.key ++ [c] }⟩) := by
          simp [doParse, hblank, pushKey]
        rw [ends_more hpush, ends_readSetKey]
        constructor
        · rintro ⟨key, gap, rest, hkey, hgap, hne, rfl, hvalue⟩
          exact ⟨c, key, gap, rest, hblank, hkey, hgap, hne, rfl, by simpa using hvalue⟩
        · rintro ⟨d, key, gap, rest, -, hkey, hgap, hne, hbytes, hvalue⟩
          obtain ⟨rfl, rfl⟩ := List.cons.inj hbytes
          exact ⟨key, gap, rest, hkey, hgap, hne, rfl, by simpa using hvalue⟩
  rw [ends_blanks fun c hc => by simp [doParse, hc, goto]]
  constructor
  · rintro ⟨sep, rest, hsep, rfl, hhead, hends⟩
    exact ⟨sep, rest, hsep, rfl, (hfirst rest hhead).mp hends⟩
  · rintro ⟨sep, rest, hsep, rfl, hset⟩
    have hhead : ∀ c ∈ rest.head?, isBlank c = false := by
      obtain ⟨c, key, gap, tail, hc, -, -, -, rfl, -⟩ := hset
      intro d hd
      obtain rfl : c = d := by simpa using hd
      exact hc
    exact ⟨sep, rest, hsep, rfl, hhead, (hfirst rest hhead).mpr hset⟩

/-- What follows the names `get` and `del`: the key goes on to the carriage return. -/
def TakesKey (cmd : Command) (bytes : Bytes) (q : CommandParser) : Prop :=
  ∃ c key, isPlain c ∧ 13 ∉ key ∧ bytes = c :: (key ++ [13, 10]) ∧
    q = ⟨.carriage, { cmd with key := cmd.key ++ c :: key }⟩

private theorem ends_typeDone : Ends ⟨.typeDone, cmd⟩ bytes q ↔
    ∃ sep rest, (∀ c ∈ sep, isBlank c) ∧ bytes = sep ++ rest ∧ TakesKey cmd rest q := by
  have hskip : ∀ c, isBlank c → doParse ⟨.typeDone, cmd⟩ c = (.needMore, ⟨.typeDone, cmd⟩) := by
    intro c hc
    have hline : ¬ (c = 13 ∨ c = 10) := by
      rintro (rfl | rfl) <;> cases hc
    simp [doParse, hline, hc, goto]
  have hfirst : ∀ rest, (∀ c ∈ rest.head?, isBlank c = false) →
      (Ends ⟨.typeDone, cmd⟩ rest q ↔ TakesKey cmd rest q) := by
    intro rest hhead
    cases rest with
    | nil => simp [not_ends_nil, TakesKey]
    | cons c rest =>
        have hblank : isBlank c = false := hhead c (by simp)
        by_cases hline : c = 13 ∨ c = 10
        · have hbad : (doParse ⟨.typeDone, cmd⟩ c).1 = .bad := by simp [doParse, hline, refuse]
          simp only [not_ends_bad hbad, false_iff]
          rintro ⟨d, key, hd, -, hbytes, -⟩
          obtain ⟨rfl, -⟩ := List.cons.inj hbytes
          rw [isPlain_iff] at hd
          rcases hline with rfl | rfl <;> simp at hd
        · have hplain : isPlain c = true := by
            rw [isPlain_iff]
            exact ⟨hblank, fun h => hline (.inl h), fun h => hline (.inr h)⟩
          have hpush : doParse ⟨.typeDone, cmd⟩ c =
              (.needMore, ⟨.readKey, { cmd with key := cmd.key ++ [c] }⟩) := by
            simp [doParse, hline, hblank, pushKey]
          have hkey := ends_line (q := q) .readKey (fun key => { cmd with key })
            (fun acc c hc => by simp [doParse, hc, pushKey])
            (fun acc => by simp [doParse, goto]) (cmd.key ++ [c]) rest
          rw [ends_more hpush, hkey]
          constructor
          · rintro ⟨key, htail, rfl, rfl⟩
            exact ⟨c, key, hplain, htail, rfl, by simp⟩
          · rintro ⟨d, key, -, htail, hbytes, rfl⟩
            obtain ⟨rfl, rfl⟩ := List.cons.inj hbytes
            exact ⟨key, htail, rfl, by simp⟩
  rw [ends_blanks hskip]
  constructor
  · rintro ⟨sep, rest, hsep, rfl, hhead, hends⟩
    exact ⟨sep, rest, hsep, rfl, (hfirst rest hhead).mp hends⟩
  · rintro ⟨sep, rest, hsep, rfl, hkey⟩
    have hhead : ∀ c ∈ rest.head?, isBlank c = false := by
      obtain ⟨c, key, hc, -, rfl, -⟩ := hkey
      intro d hd
      obtain rfl : c = d := by simpa using hd
      exact (isPlain_iff.mp hc).1
    exact ⟨sep, rest, hsep, rfl, hhead, (hfirst rest hhead).mpr hkey⟩

/-! ## Names -/

private theorem ends_letter {r : CommandParser} {x : UInt8} (hgo : p.doParse x = (.needMore, r))
    (hbad : ∀ c, c ≠ x → (p.doParse c).1 = .bad) (bytes : Bytes) :
    Ends p bytes q ↔ ∃ rest, bytes = x :: rest ∧ Ends r rest q := by
  cases bytes with
  | nil => simp [not_ends_nil]
  | cons c rest =>
      by_cases hc : c = x
      · subst hc
        simp [ends_more hgo]
      · simp [not_ends_bad (hbad c hc), hc]

def word : CommandType → Bytes
  | .get => ascii "get"
  | .set => ascii "set"
  | .del => ascii "del"
  | .unknown => []

def Named (type : CommandType) (state : State) (bytes : Bytes) (q : CommandParser) : Prop :=
  ∃ rest, bytes = word type ++ rest ∧ Ends ⟨state, { Command.reset with type }⟩ rest q

private theorem ends_name (type : CommandType) (s₁ s₂ state : State) (x y z : UInt8)
    (hword : word type = [x, y, z])
    (hsecond : ∀ c, doParse ⟨s₁, .reset⟩ c =
      if c = y then (.needMore, ⟨s₂, .reset⟩) else (.bad, ⟨s₁, .reset⟩))
    (hthird : ∀ c, doParse ⟨s₂, .reset⟩ c =
      if c = z then (.needMore, ⟨state, { Command.reset with type }⟩) else (.bad, ⟨s₂, .reset⟩)) :
    Ends ⟨s₁, .reset⟩ bytes q ↔ Named type state (x :: bytes) q := by
  have second := ends_letter (q := q) ((hsecond y).trans (if_pos rfl))
    fun c hc => by rw [hsecond, if_neg hc]
  have third := ends_letter (q := q) ((hthird z).trans (if_pos rfl))
    fun c hc => by rw [hthird, if_neg hc]
  rw [second, Named, hword]
  constructor
  · rintro ⟨tail, rfl, hends⟩
    obtain ⟨rest, rfl, hrest⟩ := (third tail).mp hends
    exact ⟨rest, rfl, hrest⟩
  · rintro ⟨rest, hbytes, hends⟩
    exact ⟨z :: rest, (List.cons.inj hbytes).2, (third _).mpr ⟨rest, rfl, hends⟩⟩

private theorem ends_fresh : Ends fresh bytes q ↔ ∃ before rest, (∀ c ∈ before, isBlank c) ∧
    bytes = before ++ rest ∧
      (Named .get .typeDone rest q ∨ Named .set .typeSet rest q ∨ Named .del .typeDone rest q) := by
  have hfirst : ∀ rest, (∀ c ∈ rest.head?, isBlank c = false) → (Ends fresh rest q ↔
      (Named .get .typeDone rest q ∨ Named .set .typeSet rest q ∨
        Named .del .typeDone rest q)) := by
    intro rest hhead
    cases rest with
    | nil => simp [not_ends_nil, Named, word, ascii]
    | cons c rest =>
        have hblank : isBlank c = false := hhead c (by simp)
        have hnot : ∀ (type : CommandType) (state : State) {x y z : UInt8},
            word type = [x, y, z] → c ≠ x → ¬ Named type state (c :: rest) q := by
          rintro type state x y z hword hc ⟨tail, hbytes, -⟩
          rw [hword] at hbytes
          exact hc (List.cons.inj hbytes).1
        by_cases hg : c = 103
        · subst hg
          have hgo : fresh.doParse 103 = (.needMore, ⟨.typeG, .reset⟩) := rfl
          have hset := hnot .set .typeSet rfl (by decide)
          have hdel := hnot .del .typeDone rfl (by decide)
          have hname : Ends ⟨.typeG, .reset⟩ rest q ↔ _ :=
            ends_name .get .typeG .typeGe .typeDone 103 101 116 rfl (fun _ => rfl) fun _ => rfl
          simp [ends_more hgo, hname, hset, hdel]
        by_cases hs : c = 115
        · subst hs
          have hgo : fresh.doParse 115 = (.needMore, ⟨.typeS, .reset⟩) := rfl
          have hget := hnot .get .typeDone rfl (by decide)
          have hdel := hnot .del .typeDone rfl (by decide)
          have hname : Ends ⟨.typeS, .reset⟩ rest q ↔ _ :=
            ends_name .set .typeS .typeSe .typeSet 115 101 116 rfl (fun _ => rfl) fun _ => rfl
          simp [ends_more hgo, hname, hget, hdel]
        by_cases hd : c = 100
        · subst hd
          have hgo : fresh.doParse 100 = (.needMore, ⟨.typeD, .reset⟩) := rfl
          have hget := hnot .get .typeDone rfl (by decide)
          have hset := hnot .set .typeSet rfl (by decide)
          have hname : Ends ⟨.typeD, .reset⟩ rest q ↔ _ :=
            ends_name .del .typeD .typeDe .typeDone 100 101 108 rfl (fun _ => rfl) fun _ => rfl
          simp [ends_more hgo, hname, hget, hset]
        · have hbad : (fresh.doParse c).1 = .bad := by
            simp [doParse, fresh, hblank, hg, hs, hd, refuse]
          have hget := hnot .get .typeDone rfl hg
          have hset := hnot .set .typeSet rfl hs
          have hdel := hnot .del .typeDone rfl hd
          simp [not_ends_bad hbad, hget, hset, hdel]
  rw [ends_blanks fun c hc => by simp [doParse, fresh, hc, goto]]
  constructor
  · rintro ⟨before, rest, hbefore, rfl, hhead, hends⟩
    exact ⟨before, rest, hbefore, rfl, (hfirst rest hhead).mp hends⟩
  · rintro ⟨before, rest, hbefore, rfl, hnamed⟩
    have hhead : ∀ c ∈ rest.head?, isBlank c = false := by
      intro c hc
      rcases hnamed with ⟨tail, rfl, -⟩ | ⟨tail, rfl, -⟩ | ⟨tail, rfl, -⟩
      all_goals
        obtain rfl := Option.some.inj hc
        rfl
    exact ⟨before, rest, hbefore, rfl, hhead, (hfirst rest hhead).mpr hnamed⟩

/-! ## Whole commands -/

def layout (type : CommandType) (before sep key gap value : Bytes) : Bytes :=
  before ++ (word type ++ (sep ++ (key ++ (gap ++ (value ++ [13, 10])))))

def IsKey (key : Bytes) : Prop := key ≠ [] ∧ ∀ c ∈ key, isPlain c

def IsValue (value : Bytes) : Prop :=
  value ≠ [] ∧ 13 ∉ value ∧ 10 ∉ value ∧ ∀ c ∈ value.head?, isBlank c = false

/-- The language of the supported commands. -/
inductive Spells : Bytes → Command → Prop
  | keyed {type : CommandType} {before sep key : Bytes} (htype : type = .get ∨ type = .del)
      (hbefore : ∀ c ∈ before, isBlank c) (hsep : ∀ c ∈ sep, isBlank c) (hne : sep ≠ [])
      (hkey : IsKey key) :
      Spells (layout type before sep key [] []) { key, value := [], type }
  | set {before sep key gap value : Bytes} (hbefore : ∀ c ∈ before, isBlank c)
      (hsep : ∀ c ∈ sep, isBlank c) (hne : sep ≠ []) (hkey : IsKey key)
      (hgap : ∀ c ∈ gap, isBlank c) (hgapne : gap ≠ []) (hvalue : IsValue value) :
      Spells (layout .set before sep key gap value) { key, value, type := .set }

inductive Takes : Bytes → Command → Bytes → Prop
  | keyed {type : CommandType} {before sep key : Bytes} {c : UInt8}
      (htype : type = .get ∨ type = .del) (hbefore : ∀ c ∈ before, isBlank c)
      (hsep : ∀ c ∈ sep, isBlank c) (hc : isPlain c) (hkey : 13 ∉ key) :
      Takes (layout type before sep (c :: key) [] []) { key := c :: key, value := [], type } sep
  | set {before sep key gap value : Bytes} {c d : UInt8} (hbefore : ∀ c ∈ before, isBlank c)
      (hsep : ∀ c ∈ sep, isBlank c) (hc : isBlank c = false) (hkey : ∀ c ∈ key, isPlain c)
      (hgap : ∀ c ∈ gap, isBlank c) (hgapne : gap ≠ []) (hd : isPlain d) (hvalue : 13 ∉ value) :
      Takes (layout .set before sep (c :: key) gap (d :: value))
        { key := c :: key, value := d :: value, type := .set } sep

/--
The parser takes the bytes although no blank follows the name, the key has a
blank or an end of line in it, or the value of a `set` has a line feed in it.
-/
def Loose (bytes : Bytes) : Prop :=
  ∃ cmd sep, Takes bytes cmd sep ∧
    (sep = [] ∨ (∃ c ∈ cmd.key, isPlain c = false) ∨ cmd.type = .set ∧ 10 ∈ cmd.value)

private theorem ends_iff_takes :
    Ends fresh bytes q ↔ ∃ sep, Takes bytes q.cmd sep ∧ q.state = .carriage := by
  have keyed : ∀ {type : CommandType} {before rest : Bytes}, type = .get ∨ type = .del →
      (∀ c ∈ before, isBlank c) → Named type .typeDone rest q →
      ∃ sep, Takes (before ++ rest) q.cmd sep ∧ q.state = .carriage := by
    rintro type before rest htype hbefore ⟨rest, rfl, hends⟩
    obtain ⟨sep, rest, hsep, rfl, c, key, hc, hkey, rfl, rfl⟩ := ends_typeDone.mp hends
    exact ⟨sep, .keyed htype hbefore hsep hc hkey, rfl⟩
  rw [ends_fresh]
  constructor
  · rintro ⟨before, rest, hbefore, rfl, hget | ⟨rest, rfl, hends⟩ | hdel⟩
    · exact keyed (.inl rfl) hbefore hget
    · obtain ⟨sep, rest, hsep, rfl, hset⟩ := ends_typeSet.mp hends
      obtain ⟨c, key, gap, rest, hc, hkey, hgap, hne, rfl, d, value, hd, hvalue, rfl, rfl⟩ := hset
      exact ⟨sep, .set hbefore hsep hc hkey hgap hne hd hvalue, rfl⟩
    · exact keyed (.inr rfl) hbefore hdel
  · rintro ⟨sep, htakes, hstate⟩
    obtain ⟨state, cmd⟩ := q
    obtain rfl : state = .carriage := hstate
    cases htakes with
    | @keyed type before _ key c htype hbefore hsep hc hkey =>
        have hends : Ends ⟨.typeDone, { Command.reset with type }⟩
            (sep ++ (c :: key ++ ([] ++ ([] ++ [13, 10]))))
            ⟨.carriage, { key := c :: key, value := [], type }⟩ :=
          ends_typeDone.mpr ⟨sep, _, hsep, rfl, c, key, hc, hkey, rfl, rfl⟩
        refine ⟨before, _, hbefore, rfl, ?_⟩
        rcases htype with rfl | rfl
        · exact .inl ⟨_, rfl, hends⟩
        · exact .inr (.inr ⟨_, rfl, hends⟩)
    | @set before _ key gap value c d hbefore hsep hc hkey hgap hne hd hvalue =>
        refine ⟨before, _, hbefore, rfl, .inr (.inl ⟨_, rfl, ends_typeSet.mpr ?_⟩)⟩
        exact ⟨sep, _, hsep, rfl, c, key, gap, _, hc, hkey, hgap, hne, rfl, d, value, hd, hvalue,
          rfl, rfl⟩

theorem Spells.takes (h : Spells bytes cmd) : ∃ sep, Takes bytes cmd sep ∧ sep ≠ [] ∧
    (∀ c ∈ cmd.key, isPlain c) ∧ (cmd.type = .set → 10 ∉ cmd.value) := by
  cases h with
  | @keyed type before sep key htype hbefore hsep hne hkey =>
      obtain ⟨c, key, rfl⟩ := List.exists_cons_of_ne_nil hkey.1
      have hreturn : 13 ∉ key := by
        intro hmem
        have := isPlain_iff.mp (hkey.2 13 (List.mem_cons_of_mem _ hmem))
        simp at this
      refine ⟨sep, .keyed htype hbefore hsep (hkey.2 c (by simp)) hreturn, hne, hkey.2, ?_⟩
      rintro rfl
      simp at htype
  | @set before sep key gap value hbefore hsep hne hkey hgap hgapne hvalue =>
      obtain ⟨c, key, rfl⟩ := List.exists_cons_of_ne_nil hkey.1
      obtain ⟨hvne, hreturn, hfeed, hhead⟩ := hvalue
      obtain ⟨d, value, rfl⟩ := List.exists_cons_of_ne_nil hvne
      simp only [List.mem_cons, not_or] at hreturn hfeed
      have hd : isPlain d = true := by
        rw [isPlain_iff]
        exact ⟨hhead d (by simp), Ne.symm hreturn.1, Ne.symm hfeed.1⟩
      refine ⟨sep, .set hbefore hsep (isPlain_iff.mp (hkey.2 c (by simp))).1
        (fun x hx => hkey.2 x (List.mem_cons_of_mem _ hx)) hgap hgapne hd hreturn.2, hne,
        hkey.2, fun _ => ?_⟩
      simpa using hfeed

private theorem Takes.spells {sep : Bytes} (h : Takes bytes cmd sep) (hne : sep ≠ [])
    (hkey : ∀ c ∈ cmd.key, isPlain c) (hvalue : cmd.type = .set → 10 ∉ cmd.value) :
    Spells bytes cmd := by
  cases h with
  | keyed htype hbefore hsep hc hreturn =>
      exact .keyed htype hbefore hsep hne ⟨by simp, hkey⟩
  | @set before _ key gap value c d hbefore hsep hc hplain hgap hgapne hd hreturn =>
      have hfirst := isPlain_iff.mp hd
      refine .set hbefore hsep hne ⟨by simp, hkey⟩ hgap hgapne ⟨by simp, ?_, hvalue rfl, ?_⟩
      · simpa [hreturn] using Ne.symm hfirst.2.1
      · simpa using hfirst.1

private theorem blanks_unique {x y a b : Bytes} (hx : ∀ c ∈ x, isBlank c) (hy : ∀ c ∈ y, isBlank c)
    (ha : ∀ c ∈ a.head?, isBlank c = false) (hb : ∀ c ∈ b.head?, isBlank c = false)
    (h : x ++ a = y ++ b) : x = y ∧ a = b := by
  have hnone : ∀ {z : Bytes}, (∀ c ∈ z.head?, isBlank c = false) → z.takeWhile isBlank = [] := by
    intro z hz
    cases z with
    | nil => rfl
    | cons c z => simp [hz c (by simp)]
  have htake := congrArg (List.takeWhile isBlank) h
  rw [List.takeWhile_append_of_pos hx, List.takeWhile_append_of_pos hy, hnone ha, hnone hb,
    List.append_nil, List.append_nil] at htake
  exact ⟨htake, List.append_cancel_left (htake ▸ h)⟩

private theorem word_head {type : CommandType} (h : type ≠ .unknown) :
    word type ≠ [] ∧ ∀ c ∈ (word type).head?, isBlank c = false := by
  have hhead : (word type).head?.any (!isBlank ·) = true := by
    cases type with
    | unknown => exact absurd rfl h
    | _ => rfl
  cases hword : word type with
  | nil => simp [hword] at hhead
  | cons c rest => simpa [hword] using hhead

private theorem Takes.type_ne {sep : Bytes} (h : Takes bytes cmd sep) : cmd.type ≠ .unknown := by
  cases h with
  | keyed htype => rcases htype with rfl | rfl <;> simp
  | set => simp

private theorem Takes.sep_unique {sep sep' : Bytes} (h : Takes bytes cmd sep)
    (h' : Takes bytes cmd sep') : sep = sep' := by
  have form : ∀ {bytes : Bytes} {cmd : Command} {sep : Bytes}, Takes bytes cmd sep →
      ∃ before rest, (∀ c ∈ before, isBlank c) ∧ (∀ c ∈ sep, isBlank c) ∧
        (∀ c ∈ rest.head?, isBlank c = false) ∧
        bytes = before ++ (word cmd.type ++ (sep ++ rest)) := by
    intro bytes cmd sep h
    cases h with
    | keyed htype hbefore hsep hc hkey =>
        exact ⟨_, _, hbefore, hsep, by simpa using (isPlain_iff.mp hc).1, rfl⟩
    | set hbefore hsep hc hkey hgap hne hd hvalue =>
        exact ⟨_, _, hbefore, hsep, by simpa using hc, rfl⟩
  obtain ⟨before, rest, hbefore, hsep, hrest, rfl⟩ := form h
  obtain ⟨before', rest', hbefore', hsep', hrest', hbytes⟩ := form h'
  obtain ⟨hne, hword⟩ := word_head h.type_ne
  have hhead : ∀ tail, ∀ c ∈ (word cmd.type ++ tail).head?, isBlank c = false := by
    intro tail c hc
    obtain ⟨d, name, hname⟩ := List.exists_cons_of_ne_nil hne
    rw [hname] at hword hc
    exact hword c hc
  obtain ⟨-, hname⟩ := blanks_unique hbefore hbefore' (hhead _) (hhead _) hbytes
  exact (blanks_unique hsep hsep' hrest hrest' (List.append_cancel_left hname)).1

/--
The parser takes exactly the supported commands, as what they say, on all bytes
but those with no blank behind the name, a blank or an end of line in the key,
or a line feed in the value.
-/
theorem accepts_language (bytes : Bytes) :
    (((fresh.parse bytes).1 = .good ∧ (fresh.parse bytes).2.2 = [] ↔ ∃ cmd, Spells bytes cmd) ∧
        ∀ cmd, Spells bytes cmd → (fresh.parse bytes).2.1.cmd = cmd) ↔
      ¬ Loose bytes := by
  have hends : (fresh.parse bytes).1 = .good ∧ (fresh.parse bytes).2.2 = [] ↔
      Ends fresh bytes (fresh.parse bytes).2.1 := by
    rw [Ends, Prod.ext_iff, Prod.ext_iff]
    simp
  have htaken : ∀ {cmd sep}, Takes bytes cmd sep →
      Ends fresh bytes ⟨.carriage, cmd⟩ ∧ (fresh.parse bytes).2.1.cmd = cmd := by
    intro cmd sep h
    have h' : Ends fresh bytes ⟨.carriage, cmd⟩ := ends_iff_takes.mpr ⟨sep, h, rfl⟩
    exact ⟨h', by rw [h']⟩
  rw [hends]
  constructor
  · rintro ⟨haccept, hcmd⟩ ⟨cmd, sep, htakes, hloose⟩
    obtain ⟨h, hsame⟩ := htaken htakes
    obtain ⟨cmd', hspells⟩ := haccept.mp (by rw [h]; exact h)
    obtain rfl : cmd = cmd' := hsame.symm.trans (hcmd _ hspells)
    obtain ⟨sep', htakes', hne, hkey, hvalue⟩ := hspells.takes
    obtain rfl := htakes.sep_unique htakes'
    rcases hloose with hnil | ⟨c, hc, hplain⟩ | ⟨htype, hfeed⟩
    · exact hne hnil
    · rw [hkey c hc] at hplain
      cases hplain
    · exact hvalue htype hfeed
  · intro hstrict
    refine ⟨⟨fun h => ?_, ?_⟩, fun cmd hspells => ?_⟩
    · obtain ⟨sep, htakes, -⟩ := ends_iff_takes.mp h
      refine ⟨_, htakes.spells (fun hnil => hstrict ⟨_, sep, htakes, .inl hnil⟩) ?_ ?_⟩
      · intro c hc
        by_contra hplain
        exact hstrict ⟨_, sep, htakes, .inr (.inl ⟨c, hc, by simpa using hplain⟩)⟩
      · intro htype hfeed
        exact hstrict ⟨_, sep, htakes, .inr (.inr ⟨htype, hfeed⟩)⟩
    · rintro ⟨cmd, hspells⟩
      obtain ⟨sep, htakes, -⟩ := hspells.takes
      have h := (htaken htakes).1
      rw [h]
      exact h
    · obtain ⟨sep, htakes, -⟩ := hspells.takes
      exact (htaken htakes).2

/-- A name that runs into the key is taken. -/
theorem accepts_joined :
    ¬ ∀ bytes : Bytes, ((fresh.parse bytes).1 = .good ∧ (fresh.parse bytes).2.2 = [] ↔
        ∃ cmd, Spells bytes cmd) ∧
      ∀ cmd, Spells bytes cmd → (fresh.parse bytes).2.1.cmd = cmd := by
  intro h
  obtain ⟨cmd, hspells⟩ := (h (ascii "getk\r\n")).1.mp (by decide)
  have hparsed : { key := ascii "k", value := [], type := .get } = cmd :=
    (h _).2 cmd hspells
  obtain ⟨sep, htakes, hne, -⟩ := hspells.takes
  have hjoined : Takes (layout .get [] [] [107] [] []) { key := [107], value := [], type := .get }
      [] := .keyed (.inl rfl) (by simp) (by simp) (by decide) (by simp)
  have hlayout : ascii "getk\r\n" = layout .get [] [] [107] [] [] := by decide
  rw [hlayout, ← hparsed] at htakes
  exact hne (htakes.sep_unique hjoined)

end CommandParser

end Draft.Kv
