import Draft.Foundation.Addresses
import Draft.Foundation.Texts
import Draft.Raft.Cluster

/-!
# Requests over HTTP

The config client writes a request into the target of a GET.  The server finds
the handler by what is in front of the last question mark, and the handler finds
its parameter in what is behind it.
-/

namespace Draft

/-! ## The client -/

/-- What `main` of the config client asks for. -/
inductive ClientRequest where
  | showStates
  | showServers
  | append (content : Bytes)
  | leadershipTransfer (server : Bytes)
  | addServer (server : Bytes)
  | delServer (server : Bytes)
  deriving DecidableEq, Repr

/-- The content of a log line as it stands in a target. -/
def escape (content : Bytes) : Bytes := replaceAll (ascii " ") (ascii "%20") content

def ClientRequest.target : ClientRequest → Bytes
  | .showStates => ascii "/show_states"
  | .showServers => ascii "/show_servers"
  | .append content => ascii "/append?content=" ++ escape content
  | .leadershipTransfer server => ascii "/leadership_transfer?server=" ++ server
  | .addServer server => ascii "/add_server?server=" ++ server
  | .delServer server => ascii "/del_server?server=" ++ server

/-! ## The server -/

inductive Method where
  | get
  | head
  | other
  deriving DecidableEq, Repr

structure HttpReq where
  method : Method
  target : Bytes
  deriving DecidableEq, Repr

inductive HttpStatus where
  | ok
  | badRequest
  | notFound
  deriving DecidableEq, Repr

/-- An answer; an empty body leaves it to the operation, which may answer later. -/
structure HttpRep where
  status : HttpStatus
  body : Bytes
  deriving DecidableEq, Repr

inductive Op where
  | add
  | del
  | leadershipTransfer
  | append
  deriving DecidableEq, Repr

def Op.expr : Op → Bytes
  | .add | .del | .leadershipTransfer => ascii "server"
  | .append => ascii "content"

inductive Handler where
  | showStates
  | showServers
  | request (op : Op)
  deriving DecidableEq, Repr

def handlers : List (Bytes × Handler) :=
  [(ascii "/", .showStates),
   (ascii "/show_states", .showStates),
   (ascii "/show_servers", .showServers),
   (ascii "/append", .request .append),
   (ascii "/add_server", .request .add),
   (ascii "/del_server", .request .del),
   (ascii "/leadership_transfer", .request .leadershipTransfer)]

def strToupper (s : Bytes) : Bytes := s.map fun c => if 97 ≤ c ∧ c ≤ 122 then c - 32 else c

def toString_ (n : Nat) : Bytes := ascii (toString n)

/-- The value of the first pair with the key; a pair has exactly one `=`. -/
def findRequestParams (params key : Bytes) : Bytes :=
  let value := (split 38 params).findSome? fun p =>
    match split 61 p with
    | [name, value] => if name = key then some value else none
    | _ => none
  value.getD []

/-- `confirm`: the answer to a request that is not let through. -/
def confirm (req : HttpReq) : Option HttpRep :=
  if req.method ≠ .get ∧ req.method ≠ .head then
    some ⟨.badRequest, ascii "Unknown HTTP method"⟩
  else if req.target = [] ∨ req.target.head? ≠ some 47 ∨ ascii ".." <:+: req.target then
    some ⟨.badRequest, ascii "illegal request target"⟩
  else none

namespace Raft

variable (s : Raft)

def leaderHost : Bytes := s.leader.takeWhile (· ≠ 58)

def roleString : Bytes :=
  match s.role with
  | .follower => ascii "Follower"
  | .candidate => ascii "Candidate"
  | .leader => ascii "Leader"

/-- The page of `handle_show_states`, `secs` after the start. -/
def states (httpPort : Bytes) (secs : Nat) : Bytes :=
  let v := split 58 s.selfId
  let line := fun (name : String) (value : Bytes) => ascii name ++ value ++ ascii "\n"
  let parameter := ascii "http://" ++ s.leaderHost ++ ascii ":" ++ httpPort ++
    ascii "/leadership_transfer?server="
  line "host: " (v.getD 0 []) ++ line "port: " (v.getD 1 []) ++
    line "uptime: " (toString_ (secs / 86400) ++ ascii "d " ++
      toString_ (secs / 3600 % 24) ++ ascii "h " ++
      toString_ (secs / 60 % 60) ++ ascii "m " ++ toString_ (secs % 60) ++ ascii "s") ++
    line "role: " s.roleString ++ line "index: " (toString_ s.commitIndex) ++
    line "term: " (toString_ s.currTerm) ++ line "leader: " s.leader ++
    line "servers: " s.serializeConfiguration ++
    (if s.role = .leader then
      (s.cluster.filter (·.2.id ≠ s.selfId)).flatMap fun p => parameter ++ p.2.id ++ ascii "\n"
    else []) ++
    ascii "index\tterm\tdata\n" ++
    (ascii "\n").intercalate (s.log.entries.map fun e =>
      toString_ e.index ++ ascii "\t" ++ toString_ e.term ++ ascii "\t" ++ e.data)

def handleRequest (httpPort : Bytes) (op : Op) (req : HttpReq) : Raft × HttpRep :=
  match confirm req with
  | some rep => (s, rep)
  | none =>
      if s.role ≠ .leader then (s, ⟨.ok, ascii "NOT_LEADER " ++ s.leader⟩)
      else
        let empty := (s, ⟨.ok, strToupper (ascii "empty_" ++ op.expr ++ s.leader)⟩)
        match cutLast 63 req.target with
        | none => empty
        | some (_, params) =>
            let target := findRequestParams params op.expr
            if target = [] then empty
            else
              match op with
              | .add => (s.addServer target, ⟨.ok, []⟩)
              | .del => (s.delServer target, ⟨.ok, []⟩)
              | .leadershipTransfer => ((s.leadershipTransfer target).1, ⟨.ok, []⟩)
              | .append =>
                  (s.append (replaceAll (ascii "%20") (ascii " ") target),
                    ⟨.ok, ascii "OK " ++ s.leaderHost ++ ascii ":" ++ httpPort⟩)

def dispatch (httpPort : Bytes) (secs : Nat) (req : HttpReq) : Raft × HttpRep :=
  let uri :=
    match cutLast 63 req.target with
    | none => req.target
    | some (before, _) => before
  match handlers.find? (·.1 = uri) with
  | none => (s, ⟨.notFound, uri ++ ascii "' was not found."⟩)
  | some (_, .showStates) => (s, (confirm req).getD ⟨.ok, s.states httpPort secs⟩)
  | some (_, .showServers) => (s, (confirm req).getD ⟨.ok, s.serializeConfiguration⟩)
  | some (_, .request op) => s.handleRequest httpPort op req

end Raft

/-! ## Escaping -/

section Escape

variable {content what : Bytes} {c x : UInt8}

@[simp] theorem escape_nil : escape [] = [] := replaceAll_nil _ _

private theorem escape_space (content : Bytes) :
    escape (32 :: content) = 37 :: 50 :: 48 :: escape content :=
  replaceAll_append (List.cons_ne_nil 32 []) [37, 50, 48] content

private theorem escape_cons (h : c ≠ 32) (content : Bytes) :
    escape (c :: content) = c :: escape content := by
  refine replaceAll_cons_of_not (fun hprefix => ?_) _
  obtain ⟨after, hafter⟩ := hprefix
  exact h (List.cons.inj hafter).1.symm

private theorem escape_ne_nil (h : content ≠ []) : escape content ≠ [] := by
  cases content with
  | nil => exact absurd rfl h
  | cons c content =>
      by_cases hc : c = 32
      · simp [hc, escape_space]
      · simp [escape_cons hc]

private theorem mem_escape (h : x ∉ ascii " %20") : x ∈ escape content ↔ x ∈ content := by
  induction content with
  | nil => simp
  | cons c content ih =>
      by_cases hc : c = 32
      · subst hc
        have hout : x ≠ 32 ∧ x ≠ 37 ∧ x ≠ 50 ∧ x ≠ 48 := by simpa [ascii] using h
        simp [escape_space, ih, hout]
      · simp [escape_cons hc, ih]

private theorem prefix_escape (hspace : 32 ∉ what) (hpercent : 37 ∉ what) :
    what <+: escape content ↔ what <+: content := by
  induction what generalizing content with
  | nil => simp
  | cons w what ih =>
      rw [List.mem_cons, not_or] at hspace hpercent
      cases content with
      | nil => simp
      | cons c content =>
          by_cases hc : c = 32
          · subst hc
            simp [escape_space, List.cons_prefix_cons, Ne.symm hspace.1, Ne.symm hpercent.1]
          · rw [escape_cons hc, List.cons_prefix_cons, List.cons_prefix_cons,
              ih hspace.2 hpercent.2]

private theorem dots_escape : ascii ".." <:+: escape content ↔ ascii ".." <:+: content := by
  change [46, 46] <:+: _ ↔ [46, 46] <:+: _
  induction content with
  | nil => simp
  | cons c content ih =>
      by_cases hc : c = 32
      · subst hc
        simp [escape_space, List.infix_cons_iff, List.cons_prefix_cons, ih]
      · rw [escape_cons hc, List.infix_cons_iff, List.infix_cons_iff, ih,
          ← escape_cons hc, prefix_escape (by decide) (by decide)]

private theorem unescape_escape (content : Bytes) :
    replaceAll (ascii "%20") (ascii " ") (escape content) =
      replaceAll (ascii "%20") (ascii " ") content := by
  have hescape : ascii "%20" = [37, 50, 48] := by decide
  have hskip : ∀ rest, replaceAll (ascii "%20") (ascii " ") (37 :: 50 :: 48 :: rest) =
      32 :: replaceAll (ascii "%20") (ascii " ") rest :=
    fun rest => replaceAll_append (by decide) _ rest
  induction h : content.length using Nat.strong_induction_on generalizing content with
  | _ n ih =>
      subst h
      cases content with
      | nil => rw [escape_nil]
      | cons c content =>
          have hrest := ih content.length (by simp) content rfl
          by_cases hc : c = 32
          · subst hc
            rw [escape_space, hskip, hrest,
              replaceAll_cons_of_not (by simp [hescape, List.cons_prefix_cons])]
          · have hprefix : ascii "%20" <+: c :: escape content ↔ ascii "%20" <+: c :: content := by
              rw [hescape, List.cons_prefix_cons, List.cons_prefix_cons,
                prefix_escape (by decide) (by decide)]
            rw [escape_cons hc]
            by_cases htyped : ascii "%20" <+: c :: content
            · obtain ⟨after, hafter⟩ := htyped
              obtain ⟨rfl, rfl⟩ : c = 37 ∧ content = 50 :: 48 :: after := by
                rw [hescape] at hafter
                exact ⟨(List.cons.inj hafter).1.symm, (List.cons.inj hafter).2.symm⟩
              rw [escape_cons (by decide), escape_cons (by decide), hskip, hskip,
                ih after.length (by simp only [List.length_cons]; omega) after rfl]
            · rw [replaceAll_cons_of_not (mt hprefix.mp htyped), replaceAll_cons_of_not htyped,
                hrest]

end Escape

/-! ## The parameter -/

section Params

variable {params key value : Bytes}

private theorem findRequestParams_single (hpair : 38 ∉ params) (hkey : 61 ∉ key) (hvalue : 61 ∉ value)
    (h : params = key ++ 61 :: value) : findRequestParams params key = value := by
  rw [findRequestParams, split_of_not_mem hpair, h]
  simp [split_append_sep hkey, split_of_not_mem hvalue]

private theorem mem_findRequestParams {c : UInt8} (hc : c ∈ findRequestParams params key) :
    c ≠ 38 ∧ c ≠ 61 := by
  unfold findRequestParams at hc
  dsimp only at hc
  cases hfound : (split 38 params).findSome? (fun p => match split 61 p with
      | [name, value] => if name = key then some value else none
      | _ => none) with
  | none =>
      rw [hfound] at hc
      cases hc
  | some value =>
      rw [hfound] at hc
      obtain ⟨pair, hpair, hvalue⟩ := List.exists_of_findSome?_eq_some hfound
      split at hvalue
      · rename_i name own hsplit
        split at hvalue
        · cases hvalue
          have hmem : value ∈ split 61 pair := by simp [hsplit]
          refine ⟨?_, ?_⟩
          · rintro rfl
            exact not_mem_of_mem_split pair hpair (mem_of_mem_split hmem hc)
          · rintro rfl
            exact not_mem_of_mem_split value hmem hc
        · cases hvalue
      · cases hvalue

end Params

/-! ## A log line -/

/-- None of the texts that the client leaves in the target and the server reads. -/
structure Sendable (content : Bytes) : Prop where
  question : 63 ∉ content
  ampersand : 38 ∉ content
  equals : 61 ∉ content
  dots : ¬ ascii ".." <:+: content
  escape : ¬ ascii "%20" <:+: content

instance (content : Bytes) : Decidable (Sendable content) :=
  decidable_of_iff (63 ∉ content ∧ 38 ∉ content ∧ 61 ∉ content ∧
      ¬ ascii ".." <:+: content ∧ ¬ ascii "%20" <:+: content)
    ⟨fun h => ⟨h.1, h.2.1, h.2.2.1, h.2.2.2.1, h.2.2.2.2⟩,
      fun h => ⟨h.question, h.ampersand, h.equals, h.dots, h.escape⟩⟩

def received (content : Bytes) : Bytes :=
  replaceAll (ascii "%20") (ascii " ")
    (findRequestParams (ascii "content=" ++ escape content) (ascii "content"))

private theorem value_of_clean {content : Bytes} (hampersand : 38 ∉ content) (hequals : 61 ∉ content) :
    findRequestParams (ascii "content=" ++ escape content) (ascii "content") = escape content := by
  refine findRequestParams_single ?_ (by decide) ((mem_escape (by decide)).not.mpr hequals) ?_
  · rw [List.mem_append, mem_escape (by decide)]
    exact not_or.mpr ⟨by decide, hampersand⟩
  · simp [ascii]

private theorem received_of_clean {content : Bytes} (hampersand : 38 ∉ content) (hequals : 61 ∉ content) :
    received content = replaceAll (ascii "%20") (ascii " ") content := by
  rw [received, value_of_clean hampersand hequals, unescape_escape]

private theorem append_target (content : Bytes) : (ClientRequest.append content).target =
    ascii "/append" ++ 63 :: (ascii "content=" ++ escape content) := by
  simp [ClientRequest.target, ascii]

private theorem dots_target {content : Bytes} :
    ascii ".." <:+: (ClientRequest.append content).target ↔ ascii ".." <:+: content := by
  refine Iff.trans ?_ dots_escape
  simp [ClientRequest.target, ascii, List.infix_cons_iff, List.cons_prefix_cons]

private theorem confirm_append {content : Bytes} :
    confirm ⟨.get, (ClientRequest.append content).target⟩ =
      if ascii ".." <:+: content then some ⟨.badRequest, ascii "illegal request target"⟩
      else none := by
  have hne : (ClientRequest.append content).target ≠ [] := by simp [append_target]
  have hhead : (ClientRequest.append content).target.head? = some 47 := by
    simp [append_target, ascii]
  simp [confirm, hne, hhead, dots_target]

namespace Raft

variable {s : Raft} {content : Bytes}

private theorem dispatch_append (hleader : s.role = .leader) (httpPort : Bytes) (secs : Nat)
    (content : Bytes) :
    (s.dispatch httpPort secs ⟨.get, (ClientRequest.append content).target⟩).1 =
      if 63 ∈ content ∨ ascii ".." <:+: content ∨
        findRequestParams (ascii "content=" ++ escape content) (ascii "content") = [] then s
      else s.append (received content) := by
  by_cases hquestion : 63 ∈ content
  · -- what is in front of the last question mark has the first one in it
    obtain ⟨before, after, hcut⟩ :=
      cutLast_append_of_mem ((mem_escape (by decide)).mpr hquestion)
    have hunknown : handlers.find? (·.1 = ascii "/append?content=" ++ before) = none := by
      rw [List.find?_eq_none]
      intro p hp heq
      have hmark : (63 : UInt8) ∈ p.1 := by
        rw [of_decide_eq_true heq]
        exact List.mem_append_left before (by decide)
      revert hmark
      exact (show ∀ p ∈ handlers, (63 : UInt8) ∉ p.1 by decide) p hp
    rw [if_pos (.inl hquestion)]
    simp only [dispatch, ClientRequest.target, hcut, hunknown]
  · have hparams : (63 : UInt8) ∉ ascii "content=" ++ escape content := by
      rw [List.mem_append, mem_escape (by decide)]
      exact not_or.mpr ⟨by decide, hquestion⟩
    have hcut := cutLast_append_sep hparams (ascii "/append")
    have hfind : handlers.find? (·.1 = ascii "/append") =
        some (ascii "/append", .request .append) := by decide
    rw [← append_target] at hcut
    simp only [dispatch, hcut, hfind, handleRequest, confirm_append, hquestion, false_or]
    by_cases hdots : ascii ".." <:+: content
    · simp only [hdots, if_true, true_or]
    · have hexpr : Op.append.expr = ascii "content" := rfl
      simp only [hdots, if_false, false_or, hleader, ne_eq, not_true_eq_false, hexpr]
      split
      · rfl
      · rfl

/--
A log line arrives as it was typed exactly when nothing in it means something to
the server.
-/
theorem append_arrives (hleader : s.role = .leader) (httpPort : Bytes) (secs : Nat)
    (hne : content ≠ []) :
    (∃ e : LogEntry, e.data = content ∧
      (s.dispatch httpPort secs ⟨.get, (ClientRequest.append content).target⟩).1.log.entries =
        s.log.entries ++ [e]) ↔ Sendable content := by
  have happend : ∀ data, (s.append data).log.entries = s.log.entries ++
      [s.log.makeEntry data (s.log.lastEntryIndex + 1) s.currTerm false] := by
    intro data
    unfold Raft.append
    rw [if_neg (not_not.mpr hleader)]
    rfl
  rw [dispatch_append hleader]
  constructor
  · rintro ⟨e, hdata, hentries⟩
    split at hentries
    · simp at hentries
    rename_i hsent
    simp only [not_or] at hsent
    obtain ⟨hquestion, hdots, hvalue⟩ := hsent
    have hreceived : received content = content := by
      rw [happend, List.append_cancel_left_eq, List.cons.injEq] at hentries
      have hmade : e.data = received content := by
        rw [← hentries.1]
        rfl
      exact hmade.symm.trans hdata
    -- a value has no separator in it
    have hclean : ∀ c ∈ content, c ≠ 38 ∧ c ≠ 61 := by
      intro c hc
      rw [← hreceived] at hc
      rcases mem_replaceAll hc with hc | hc
      · exact mem_findRequestParams hc
      · obtain rfl : c = 32 := by simpa [ascii] using hc
        decide
    have hampersand : 38 ∉ content := fun h => (hclean _ h).1 rfl
    have hequals : 61 ∉ content := fun h => (hclean _ h).2 rfl
    refine ⟨hquestion, hampersand, hequals, hdots, ?_⟩
    rw [received_of_clean hampersand hequals] at hreceived
    exact (replaceAll_eq_self_iff (by decide)).mp hreceived
  · intro h
    have hreceived : received content = content := by
      rw [received_of_clean h.ampersand h.equals]
      exact replaceAll_of_not_infix h.escape
    have hvalue := value_of_clean h.ampersand h.equals
    have hsent : ¬ (63 ∈ content ∨ ascii ".." <:+: content ∨
        findRequestParams (ascii "content=" ++ escape content) (ascii "content") = []) := by
      rw [hvalue]
      simp [h.question, h.dots, escape_ne_nil hne]
    rw [if_neg hsent, hreceived, happend]
    exact ⟨_, rfl, rfl⟩

def lonelyLeader : Raft :=
  ((World.cluster ["127.0.0.1:8080"] false).servers (ascii "127.0.0.1:8080")).onElectionTimeout

theorem append_arrives_set :
    ∃ e : LogEntry, e.data = ascii "set key a value" ∧
      (lonelyLeader.dispatch (ascii "8090") 0
        ⟨.get, (ClientRequest.append (ascii "set key a value")).target⟩).1.log.entries =
        lonelyLeader.log.entries ++ [e] :=
  (append_arrives (by decide) (ascii "8090") 0 (by decide)).mpr (by decide)

theorem equals_lost :
    ¬ ∀ (s : Raft) (httpPort : Bytes) (secs : Nat) (content : Bytes), s.role = .leader →
      content ≠ [] → (∀ c ∈ content, 32 ≤ c ∧ c ≤ 126) →
      ∃ e : LogEntry, e.data = content ∧
        (s.dispatch httpPort secs ⟨.get, (ClientRequest.append content).target⟩).1.log.entries =
          s.log.entries ++ [e] := by
  intro h
  obtain ⟨e, -, hentries⟩ := h lonelyLeader (ascii "8090") 0 (ascii "set key a=b") (by decide)
    (by decide) (by decide +kernel)
  have hsame : (lonelyLeader.dispatch (ascii "8090") 0
      ⟨.get, (ClientRequest.append (ascii "set key a=b")).target⟩).1.log.entries =
        lonelyLeader.log.entries := by decide
  rw [hsame] at hentries
  simp at hentries

end Raft

end Draft
