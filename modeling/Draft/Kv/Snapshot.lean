import Mathlib.Data.List.DropRight
import Draft.Foundation.Addresses
import Draft.Kv.Storage

/-!
# The snapshot file

`take_snapshot` writes the entries as they are, a line each; `load_database` has
the file read as a configuration file, which has comments, sections and its own
separator.  A database comes back exactly when no entry has any of these in it.
-/

namespace Draft.Kv

/-! ## Writing -/

/-- `%s` prints up to the first null byte. -/
def cString (text : Bytes) : Bytes := text.takeWhile (· ≠ 0)

def snapshotLine (key value : Bytes) : Bytes := cString key ++ ascii " = " ++ cString value

/-- `take_snapshot`, of the entries in the order of the hash map. -/
def takeSnapshot (entries : List (Bytes × Bytes)) : Bytes :=
  entries.flatMap fun e => snapshotLine e.1 e.2 ++ [10]

/-! ## Reading -/

/-- What is cut off at both ends of a line, a name and a value. -/
def isTrimmed (c : UInt8) : Bool := c = 32 || c = 9 || c = 13 || c = 10

def trim (text : Bytes) : Bytes := (text.dropWhile isTrimmed).rdropWhile isTrimmed

/--
One line of a configuration file, below a section heading: the heading for the
next line and the entry of this one.  There is none for a line without a `=`.
-/
def configLine (heading line : Bytes) : Option (Bytes × List (Bytes × Bytes)) :=
  let text := trim (line.takeWhile (· ≠ 35))
  if text = [] then some (heading, [])
  else if text.head? = some 91 ∧ text.getLast? = some 93 then
    let name := text.tail.dropLast
    some (if name.getLast? = some 46 then name else name ++ [46], [])
  else if 61 ∈ text then
    some (heading,
      [(heading ++ trim (text.takeWhile (· ≠ 61)), trim (text.dropWhile (· ≠ 61)).tail)])
  else none

def configLines (heading : Bytes) : List Bytes → Option (List (Bytes × Bytes))
  | [] => some []
  | line :: rest =>
      match configLine heading line with
      | none => none
      | some (heading, entries) => (configLines heading rest).map (entries ++ ·)

/-- What is assumed of `parse_config_file`; `none` is its exception. -/
def ReadsLines (parseConfigFile : Bytes → Option (List (Bytes × Bytes))) : Prop :=
  ∀ text, parseConfigFile text = configLines [] (split 10 text)

/-- `config_parser::parse`: of two entries with one name the first stays. -/
def parsedConfig (entries : List (Bytes × Bytes)) : Database :=
  fun key => (entries.find? (·.1 = key)).map (·.2)

/-- `load_database`; an empty file is not read. -/
def loadDatabase (parseConfigFile : Bytes → Option (List (Bytes × Bytes))) (db : Database)
    (text : Bytes) : Option Database :=
  if text = [] then some db
  else (parseConfigFile text).map fun entries key => (parsedConfig entries key).or (db key)

/-! ## Trimmed text -/

section Trim

variable {text key value : Bytes}

private theorem trim_eq_self : trim text = text ↔
    text.dropWhile isTrimmed = text ∧ text.rdropWhile isTrimmed = text := by
  constructor
  · intro h
    have hdrop : text.dropWhile isTrimmed = text := by
      refine (List.dropWhile_suffix isTrimmed).eq_of_length_le ?_
      have hlength := congrArg List.length h
      have hinit := (List.rdropWhile_prefix isTrimmed (text.dropWhile isTrimmed)).length_le
      rw [trim] at hlength
      omega
    rw [trim, hdrop] at h
    exact ⟨hdrop, h⟩
  · rintro ⟨hdrop, hrdrop⟩
    rw [trim, hdrop, hrdrop]

private theorem trim_trim (text : Bytes) : trim (trim text) = trim text := by
  rw [trim_eq_self]
  refine ⟨?_, List.rdropWhile_idempotent _ _⟩
  rw [List.dropWhile_eq_self_iff]
  intro hpos
  have hinit := List.rdropWhile_prefix isTrimmed (text.dropWhile isTrimmed)
  have hlength := hinit.length_le
  unfold trim at hpos ⊢
  rw [hinit.getElem hpos]
  exact List.dropWhile_get_zero_not isTrimmed text (by omega)

private theorem dropWhile_append_self (h : text.dropWhile isTrimmed = text) (hne : text ≠ [])
    (rest : Bytes) : (text ++ rest).dropWhile isTrimmed = text ++ rest := by
  cases text with
  | nil => contradiction
  | cons c text =>
      rw [List.dropWhile_eq_self_iff] at h
      exact List.dropWhile_cons_of_neg (h (Nat.succ_pos _))

private theorem rdropWhile_append_self (h : text.rdropWhile isTrimmed = text) (hne : text ≠ [])
    (front : Bytes) : (front ++ text).rdropWhile isTrimmed = front ++ text := by
  rw [List.rdropWhile_eq_self_iff] at h ⊢
  intro hall
  rw [List.getLast_append_of_ne_nil _ hne]
  exact h hne

private theorem trim_line (hkey : trim key = key) (hvalue : trim value = value) :
    trim (key ++ 32 :: 61 :: 32 :: value) =
      (if key = [] then [] else key ++ [32]) ++ 61 :: if value = [] then [] else 32 :: value := by
  rw [trim_eq_self] at hkey hvalue
  have hfront : (key ++ 32 :: 61 :: 32 :: value).dropWhile isTrimmed =
      (if key = [] then [] else key ++ [32]) ++ 61 :: 32 :: value := by
    by_cases hnil : key = []
    · simp [hnil, isTrimmed]
    · rw [dropWhile_append_self hkey.1 hnil, if_neg hnil]
      simp
  rw [trim, hfront]
  by_cases hnil : value = []
  · subst hnil
    generalize (if key = [] then [] else key ++ [32]) = front
    have hcut : (front ++ [61, 32]).rdropWhile isTrimmed = front ++ [61] := by
      have hsplit : front ++ [61, 32] = front ++ [61] ++ [32] := by simp
      rw [hsplit, List.rdropWhile_concat_pos _ _ _ (by decide),
        List.rdropWhile_concat_neg _ _ _ (by decide)]
    exact hcut
  · rw [if_neg hnil]
    have hassoc := rdropWhile_append_self hvalue.2 hnil
      ((if key = [] then [] else key ++ [32]) ++ [61, 32])
    simpa using hassoc

private theorem mem_of_mem_trim {c : UInt8} (h : c ∈ trim text) : c ∈ text :=
  (List.dropWhile_sublist _).subset ((List.rdropWhile_prefix _ _).subset h)

end Trim

/-! ## Lines -/

variable {key value heading line : Bytes} {entries es : List (Bytes × Bytes)}

def Clean (text : Bytes) : Prop := ∀ c ∈ text, c ≠ 0 ∧ c ≠ 10 ∧ c ≠ 35

private theorem configLine_cases {next : Bytes} (h : configLine heading line = some (next, es)) :
    es = [] ∨ ∃ text, text = trim (line.takeWhile (· ≠ 35)) ∧ next = heading ∧
      ¬ (text.head? = some 91 ∧ text.getLast? = some 93) ∧
      es = [(heading ++ trim (text.takeWhile (· ≠ 61)), trim (text.dropWhile (· ≠ 61)).tail)] := by
  unfold configLine at h
  dsimp only at h
  split at h
  · cases h
    exact .inl rfl
  split at h
  · cases h
    exact .inl rfl
  rename_i hsection
  split at h
  · cases h
    exact .inr ⟨_, rfl, rfl, hsection, rfl⟩
  · cases h

private theorem configLine_clean {next : Bytes} (h : configLine heading line = some (next, es))
    (hheading : Clean heading) (hline : ∀ c ∈ line, c ≠ 0 ∧ c ≠ 10) :
    Clean next ∧ ∀ e ∈ es, Clean e.1 ∧ Clean e.2 ∧ trim e.2 = e.2 := by
  have htext : ∀ c ∈ trim (line.takeWhile (· ≠ 35)), c ≠ 0 ∧ c ≠ 10 ∧ c ≠ 35 := by
    intro c hc
    have hcut := mem_of_mem_trim hc
    obtain ⟨h0, h10⟩ := hline c ((List.takeWhile_sublist _).subset hcut)
    exact ⟨h0, h10, by simpa using List.mem_takeWhile_imp hcut⟩
  unfold configLine at h
  dsimp only at h
  split at h
  · cases h
    simpa using hheading
  split at h
  · cases h
    refine ⟨fun c hc => ?_, by simp⟩
    have hname : ∀ c ∈ (trim (line.takeWhile (· ≠ 35))).tail.dropLast,
        c ≠ 0 ∧ c ≠ 10 ∧ c ≠ 35 := fun c hc =>
      htext c (List.mem_of_mem_tail ((List.dropLast_sublist _).subset hc))
    split at hc
    · exact hname c hc
    · rcases List.mem_append.mp hc with hc | hc
      · exact hname c hc
      · obtain rfl := List.mem_singleton.mp hc
        decide
  split at h
  · cases h
    refine ⟨hheading, fun e he => ?_⟩
    obtain rfl := List.mem_singleton.mp he
    refine ⟨fun c hc => ?_, fun c hc => ?_, trim_trim _⟩
    · rcases List.mem_append.mp hc with hc | hc
      · exact hheading c hc
      · exact htext c ((List.takeWhile_sublist _).subset (mem_of_mem_trim hc))
    · exact htext c ((List.dropWhile_sublist _).subset
        (List.mem_of_mem_tail (mem_of_mem_trim hc)))
  · cases h

variable {lines : List Bytes}

private theorem configLines_clean (h : configLines heading lines = some es) (hheading : Clean heading)
    (hlines : ∀ line ∈ lines, ∀ c ∈ line, c ≠ 0 ∧ c ≠ 10) :
    ∀ e ∈ es, Clean e.1 ∧ Clean e.2 ∧ trim e.2 = e.2 := by
  induction lines generalizing heading es with
  | nil =>
      cases h
      simp
  | cons line rest ih =>
      rw [configLines] at h
      split at h
      · cases h
      · rename_i next first hline
        obtain ⟨others, hothers, rfl⟩ := Option.map_eq_some_iff.mp h
        simp only [List.forall_mem_cons] at hlines
        obtain ⟨hnext, hfirst⟩ := configLine_clean hline hheading hlines.1
        intro e he
        rcases List.mem_append.mp he with he | he
        · exact hfirst e he
        · exact ih hothers hnext hlines.2 e he

private theorem configLines_length (h : configLines heading lines = some es) :
    es.length ≤ lines.length ∧ (es.length = lines.length →
      (∀ line ∈ lines, ∃ e, configLine heading line = some (heading, [e])) ∧
        ∀ e ∈ es, ∃ line, configLine heading line = some (heading, [e])) := by
  induction lines generalizing heading es with
  | nil =>
      cases h
      simp
  | cons line rest ih =>
      rw [configLines] at h
      split at h
      · cases h
      · rename_i next first hline
        obtain ⟨others, hothers, rfl⟩ := Option.map_eq_some_iff.mp h
        obtain ⟨hle, hall⟩ := ih hothers
        rcases configLine_cases hline with rfl | ⟨text, -, rfl, -, rfl⟩
        · simp only [List.nil_append, List.length_cons]
          exact ⟨by omega, fun hlength => by omega⟩
        · simp only [List.singleton_append, List.length_cons, List.forall_mem_cons]
          refine ⟨by omega, fun hlength => ?_⟩
          obtain ⟨hlines, hentries⟩ := hall (by omega)
          exact ⟨⟨⟨_, hline⟩, hlines⟩, ⟨_, hline⟩, hentries⟩

theorem configLines_blank (heading : Bytes) (lines : List Bytes) :
    configLines heading (lines ++ [[]]) = configLines heading lines := by
  induction lines generalizing heading with
  | nil => rfl
  | cons line rest ih => simp only [List.cons_append, configLines, ih]

theorem configLines_entries
    (h : ∀ e ∈ entries, configLine [] (snapshotLine e.1 e.2) = some ([], [e])) :
    configLines [] (entries.map fun e => snapshotLine e.1 e.2) = some entries := by
  induction entries with
  | nil => rfl
  | cons e rest ih =>
      simp only [List.forall_mem_cons] at h
      simp [configLines, h.1, ih h.2]

/-! ## The file as lines -/

private theorem cString_of_clean (h : 0 ∉ key) : cString key = key := by
  rw [cString, List.takeWhile_eq_self_iff]
  intro c hc
  have : c ≠ 0 := fun heq => h (heq ▸ hc)
  simpa using this

private theorem zero_not_mem_snapshot : 0 ∉ takeSnapshot entries := by
  simp only [takeSnapshot, List.mem_flatMap, not_exists, not_and]
  intro e _ hmem
  have hcut : ∀ text : Bytes, 0 ∉ cString text := by
    intro text hzero
    simpa using List.mem_takeWhile_imp hzero
  simp only [snapshotLine, List.mem_append, hcut, false_or, or_false] at hmem
  exact absurd hmem (by decide)

theorem newline_not_mem_line (hkey : Clean key) (hvalue : Clean value) :
    10 ∉ snapshotLine key value := by
  intro hmem
  simp only [snapshotLine, List.mem_append] at hmem
  rcases hmem with (hmem | hmem) | hmem
  · exact (hkey 10 ((List.takeWhile_sublist _).subset hmem)).2.1 rfl
  · exact absurd hmem (by decide)
  · exact (hvalue 10 ((List.takeWhile_sublist _).subset hmem)).2.1 rfl

theorem split_snapshot (h : ∀ e ∈ entries, 10 ∉ snapshotLine e.1 e.2) :
    split 10 (takeSnapshot entries) = (entries.map fun e => snapshotLine e.1 e.2) ++ [[]] := by
  induction entries with
  | nil => rfl
  | cons e rest ih =>
      simp only [List.forall_mem_cons] at h
      have hsnapshot : takeSnapshot (e :: rest) =
          snapshotLine e.1 e.2 ++ 10 :: takeSnapshot rest := by
        simp [takeSnapshot]
      rw [hsnapshot, split_append_sep h.1, ih h.2]
      rfl

/-! ## Entries that come back -/

/-- An entry in which the configuration file has nothing to read but the entry. -/
structure Plain (key value : Bytes) : Prop where
  key_clean : ∀ c ∈ key, c ≠ 0 ∧ c ≠ 10 ∧ c ≠ 35 ∧ c ≠ 61
  value_clean : ∀ c ∈ value, c ≠ 0 ∧ c ≠ 10 ∧ c ≠ 35
  key_trimmed : trim key = key
  value_trimmed : trim value = value
  no_section : ¬ (key.head? = some 91 ∧ value.getLast? = some 93)

theorem Plain.clean (h : Plain key value) : Clean key := fun c hc =>
  ⟨(h.key_clean c hc).1, (h.key_clean c hc).2.1, (h.key_clean c hc).2.2.1⟩

private theorem text_line (hkey : Clean key) (hvalue : Clean value) (htkey : trim key = key)
    (htvalue : trim value = value) :
    trim ((snapshotLine key value).takeWhile (· ≠ 35)) =
      (if key = [] then [] else key ++ [32]) ++ 61 :: if value = [] then [] else 32 :: value := by
  have hcut : (snapshotLine key value).takeWhile (· ≠ 35) = key ++ 32 :: 61 :: 32 :: value := by
    have hline : snapshotLine key value = key ++ 32 :: 61 :: 32 :: value := by
      rw [snapshotLine, cString_of_clean fun h => (hkey 0 h).1 rfl,
        cString_of_clean fun h => (hvalue 0 h).1 rfl, List.append_assoc]
      rfl
    rw [hline, List.takeWhile_eq_self_iff]
    intro c hc
    simp only [List.mem_append, List.mem_cons] at hc
    rcases hc with hc | rfl | rfl | rfl | hc
    · simpa using (hkey c hc).2.2
    · decide
    · decide
    · decide
    · simpa using (hvalue c hc).2.2
  rw [hcut, trim_line htkey htvalue]

private theorem section_line :
    ((if key = [] then [] else key ++ [32]) ++
        61 :: if value = [] then [] else 32 :: value).head? = some 91 ∧
      ((if key = [] then [] else key ++ [32]) ++
        61 :: if value = [] then [] else 32 :: value).getLast? = some 93 ↔
      key.head? = some 91 ∧ value.getLast? = some 93 := by
  cases key <;> cases value <;> simp [List.getLast?_cons]

theorem configLine_plain (h : Plain key value) :
    configLine [] (snapshotLine key value) = some ([], [(key, value)]) := by
  have hequals : ∀ c ∈ key, decide (c ≠ 61) = true := fun c hc => by
    simpa using (h.key_clean c hc).2.2.2
  have hname : trim (if key = [] then [] else key ++ [32]) = key := by
    split
    · rename_i hnil
      rw [hnil]
      rfl
    · rename_i hne
      have hself := trim_eq_self.mp h.key_trimmed
      rw [trim, dropWhile_append_self hself.1 hne, List.rdropWhile_concat_pos _ _ _ (by decide),
        hself.2]
  have hvalue : trim (if value = [] then [] else 32 :: value) = value := by
    split
    · rename_i hnil
      rw [hnil]
      rfl
    · have hself := trim_eq_self.mp h.value_trimmed
      rw [trim, List.dropWhile_cons_of_pos (by decide), hself.1, hself.2]
  have hfront : ∀ c ∈ (if key = [] then [] else key ++ [32]), decide (c ≠ 61) = true := by
    intro c hc
    split at hc
    · cases hc
    · rcases List.mem_append.mp hc with hc | hc
      · exact hequals c hc
      · obtain rfl := List.mem_singleton.mp hc
        decide
  unfold configLine
  dsimp only
  rw [text_line h.clean h.value_clean h.key_trimmed h.value_trimmed, if_neg (by simp),
    if_neg (fun hsection => h.no_section (section_line.mp hsection)), if_pos (by simp),
    List.takeWhile_append_of_pos hfront, List.dropWhile_append_of_pos hfront]
  simp [hname, hvalue]

private theorem plain_of_configLine (hkey : Clean key) (hvalue : Clean value) (hequals : 61 ∉ key)
    (htkey : trim key = key) (htvalue : trim value = value) {e : Bytes × Bytes}
    (h : configLine [] (snapshotLine key value) = some ([], [e])) : Plain key value := by
  refine ⟨fun c hc => ?_, hvalue, htkey, htvalue, ?_⟩
  · obtain ⟨h0, h10, h35⟩ := hkey c hc
    exact ⟨h0, h10, h35, fun heq => hequals (heq ▸ hc)⟩
  · rcases configLine_cases h with hnil | ⟨text, rfl, -, hsection, -⟩
    · cases hnil
    · rw [text_line hkey hvalue htkey htvalue, section_line] at hsection
      exact hsection

/-! ## Databases -/

private theorem mem_of_parsedConfig (h : parsedConfig entries key = some value) :
    (key, value) ∈ entries := by
  obtain ⟨e, he, rfl⟩ := Option.map_eq_some_iff.mp h
  have hkey : e.1 = key := by simpa using List.find?_some he
  rw [← hkey]
  exact List.mem_of_find?_eq_some he

/-- The entries of a database, in any order. -/
structure Database.Lists (db : Database) (entries : List (Bytes × Bytes)) : Prop where
  nodup : (entries.map (·.1)).Nodup
  mem : ∀ key value, (key, value) ∈ entries ↔ db key = some value

theorem Database.Lists.parsed {db : Database} (h : db.Lists entries) :
    parsedConfig entries = db := by
  funext key
  cases hparsed : parsedConfig entries key with
  | some value => exact ((h.mem key value).mp (mem_of_parsedConfig hparsed)).symm
  | none =>
      cases hdb : db key with
      | none => rfl
      | some value =>
          rw [parsedConfig, Option.map_eq_none_iff, List.find?_eq_none] at hparsed
          simpa using hparsed _ ((h.mem key value).mpr hdb)

inductive Database.Reached : Database → Prop
  | empty : Reached .empty
  | insert {db : Database} (h : Reached db) (bytes : Bytes) (cmd : Command)
      (haccepts : CommandParser.Accepts bytes cmd) : Reached (db.insert cmd)
  | apply {db : Database} (h : Reached db) (bytes : Bytes) (cmd : Command)
      (haccepts : CommandParser.Accepts bytes cmd) (htype : cmd.type = .set ∨ cmd.type = .del) :
      Reached (db.apply (logText cmd))

/-- A database comes back from its snapshot exactly when each of its entries is plain. -/
theorem snapshot_round_trip {parseConfigFile : Bytes → Option (List (Bytes × Bytes))}
    (hreads : ReadsLines parseConfigFile) {db : Database} (hlists : db.Lists entries) :
    loadDatabase parseConfigFile .empty (takeSnapshot entries) = some db ↔
      ∀ key value, db key = some value → Plain key value := by
  by_cases hnil : takeSnapshot entries = []
  · have hentries : entries = [] := by
      cases entries with
      | nil => rfl
      | cons e rest => simp [takeSnapshot] at hnil
    subst hentries
    have hempty : db = .empty := by
      funext key
      cases hdb : db key with
      | none => rfl
      | some value => cases (hlists.mem key value).mpr hdb
    simp [loadDatabase, hempty, Database.empty, takeSnapshot]
  have hload : ∀ es, configLines [] (split 10 (takeSnapshot entries)) = some es →
      loadDatabase parseConfigFile .empty (takeSnapshot entries) = some (parsedConfig es) := by
    intro es hes
    rw [loadDatabase, if_neg hnil, hreads, hes]
    simp [Database.empty]
  constructor
  · intro h
    cases hes : configLines [] (split 10 (takeSnapshot entries)) with
    | none =>
        rw [loadDatabase, if_neg hnil, hreads, hes] at h
        cases h
    | some es =>
        rw [hload es hes, Option.some.injEq] at h
        have hsub : ∀ e ∈ entries, e ∈ es := by
          intro e he
          have hdb := (hlists.mem e.1 e.2).mp he
          rw [← h] at hdb
          exact mem_of_parsedConfig hdb
        have hclean := configLines_clean hes (by simp [Clean]) fun line hline c hc =>
          ⟨fun h0 => zero_not_mem_snapshot (mem_of_mem_split hline (h0 ▸ hc)),
            fun h10 => not_mem_of_mem_split line hline (h10 ▸ hc)⟩
        have hlines : split 10 (takeSnapshot entries) =
            (entries.map fun e => snapshotLine e.1 e.2) ++ [[]] := by
          refine split_snapshot fun e he => ?_
          obtain ⟨hkey, hvalue, -⟩ := hclean e (hsub e he)
          exact newline_not_mem_line hkey hvalue
        rw [hlines, configLines_blank] at hes
        -- every entry is read from some line, so no line is anything else
        obtain ⟨hle, hall⟩ := configLines_length hes
        have hnodup : entries.Nodup :=
          List.Pairwise.of_map (·.1) (fun a b hne heq => hne (congrArg (·.1) heq)) hlists.nodup
        have hge : entries.length ≤ es.length := hnodup.length_le_of_subset fun e he => hsub e he
        rw [List.length_map] at hle hall
        obtain ⟨hline, hentry⟩ := hall (by omega)
        intro key value hdb
        have hmem := (hlists.mem key value).mpr hdb
        obtain ⟨hkey, hvalue, htvalue⟩ := hclean _ (hsub _ hmem)
        obtain ⟨e, he⟩ := hline _ (List.mem_map_of_mem hmem)
        obtain ⟨line, hread⟩ := hentry _ (hsub _ hmem)
        rcases configLine_cases hread with hnone | ⟨text, -, -, -, heq⟩
        · cases hnone
        · have hname : key = trim (text.takeWhile (· ≠ 61)) :=
            congrArg (·.1) (List.singleton_inj.mp heq)
          refine plain_of_configLine hkey hvalue (fun hequals => ?_) ?_ htvalue he
          · rw [hname] at hequals
            simpa using List.mem_takeWhile_imp (mem_of_mem_trim hequals)
          · rw [hname, trim_trim]
  · intro h
    have hplain : ∀ e ∈ entries, Plain e.1 e.2 := fun e he => h _ _ ((hlists.mem e.1 e.2).mp he)
    rw [hload entries, hlists.parsed]
    rw [split_snapshot fun e he => newline_not_mem_line (hplain e he).clean
      (hplain e he).value_clean, configLines_blank]
    exact configLines_entries fun e he => configLine_plain (hplain e he)

theorem lists_insert (key value : Bytes) :
    (Database.empty.insert { key, value, type := .set }).Lists [(key, value)] where
  nodup := by simp
  mem := by
    intro key' value'
    simp only [List.mem_singleton, Prod.mk.injEq, Database.insert, Function.update_apply,
      Database.empty]
    split
    · rename_i heq
      simp [heq, eq_comm]
    · rename_i hne
      simp [hne]

theorem snapshot_round_trip_separator :
    loadDatabase (fun text => configLines [] (split 10 text)) .empty
        (takeSnapshot [(ascii "k", ascii "v = w")]) =
      some (Database.empty.insert { key := ascii "k", value := ascii "v = w", type := .set }) := by
  refine (snapshot_round_trip (fun _ => rfl) (lists_insert _ _)).mpr fun key value hdb => ?_
  obtain ⟨rfl, rfl⟩ : key = ascii "k" ∧ value = ascii "v = w" := by
    simpa using ((lists_insert _ _).mem key value).mpr hdb
  exact ⟨by simp [ascii], by simp [ascii], by decide, by decide, by decide⟩

/-- A value may not hold the mark of a comment. -/
theorem snapshot_cut :
    ¬ ∀ (parseConfigFile : Bytes → Option (List (Bytes × Bytes))) (db : Database)
      (entries : List (Bytes × Bytes)), ReadsLines parseConfigFile → db.Reached →
      db.Lists entries →
      loadDatabase parseConfigFile .empty (takeSnapshot entries) = some db := by
  intro h
  have hreached : (Database.empty.insert
      { key := ascii "k", value := ascii "v#w", type := .set }).Reached :=
    .insert .empty (ascii "set k v#w\r\n") _ (by decide)
  have hload := h (fun text => configLines [] (split 10 text)) _ _ (fun _ => rfl) hreached
    (lists_insert _ _)
  have hparsed : (loadDatabase (fun text => configLines [] (split 10 text)) .empty
      (takeSnapshot [(ascii "k", ascii "v#w")])).map (· (ascii "k")) = some (some (ascii "v")) := by
    decide
  rw [hload] at hparsed
  exact absurd hparsed (by decide)

end Draft.Kv
