import OhMyClaw.Core.Tool
import OhMyClaw.Lib.Steps

/-!
# Shell commands and their approval

Two tools run a shell command: `exec` at once, `process` in the background.  `exec` puts every
command before the approval gate.  A call of it that needs the user's word goes a long way:
the gate sends the request to the executor's pump, the pump enters a fresh approval id into the
registry, tells the client and waits, the client's reply wakes the pump, the pump answers the
gate, and only then the tool goes on.  The user's abort, the ask timeout, the loss of the
connection and the tool's own timeout may come in at every point of it.

`step` is one move of this system: of one tool call (`Move`), of a client, or of a run's cancel
token.  Calls of any number of runs go on side by side.

`process` has no gate.

    safe_iff                     no command runs unapproved, exactly as long as none that needs
                                 approval is given to `process`
    safe_fails_on_process        the shortest run where one does
-/

namespace OhMyClaw

namespace Approval

inductive ShellTool where
  | exec | process
deriving DecidableEq, Repr

inductive ToolResult where
  | badArgs | denied | aborted | timedOut | done
deriving DecidableEq, Repr

/-- Where a tool call stands. -/
inductive Pc where
  /-- The gate has sent its request; the pump has not taken it yet. -/
  | requesting
  /-- The client was told the id; its reply is waited for. -/
  | pending (id : String)
  /-- The reply is there; the pump has not seen it yet. -/
  | answered (id : String) (allow : Bool)
  /-- The pump has answered; the gate has not seen it yet. -/
  | decided (allow : Bool)
  | spawning
  | running
  | finished (result : ToolResult)
deriving DecidableEq, Repr

structure Call where
  run : String
  tool : ShellTool
  command : String
  pc : Pc
deriving DecidableEq, Repr

structure Cfg where
  mode : ApprovalMode
  /-- How long the gate waits for a reply, in seconds; 0 is for ever. -/
  approvalTimeout : Nat
  /-- The executor shares the registry of approvals. -/
  gate : Bool
  toLowercase : List Char → List Char

def Cfg.decision (cfg : Cfg) (command : String) : ApprovalOutcome :=
  approvalDecision (classifyCommand cfg.toLowercase command) cfg.mode

structure Sys where
  /-- The calls made so far; a call is known by its place. -/
  calls : List Call
  /-- The registry: which call waits for a reply to which id. -/
  approvals : List (String × Nat)
  /-- The runs whose token is set. -/
  cancelled : List String
  /-- History: the approval ids, each with the call it was issued for. -/
  issued : List (String × Nat)
  /-- History: the replies received. -/
  replies : List (String × Bool)
  /-- History: the children spawned, each with its call and its command. -/
  spawned : List (Nat × String)
deriving DecidableEq

def Sys.empty : Sys :=
  { calls := [], approvals := [], cancelled := [], issued := [], replies := [], spawned := [] }

/-- Set where call `k` stands. -/
def Sys.setPc (s : Sys) (k : Nat) (pc : Pc) : Sys :=
  { s with calls := s.calls.modify k fun c => { c with pc } }

/-- The pump of call `k` is gone, and with it its entry in the registry. -/
def Sys.forget (s : Sys) (k : Nat) : Sys :=
  { s with approvals := s.approvals.filter fun e => e.2 ≠ k }

/-- Where the gate sends a new `exec` call. -/
def gatePc (cfg : Cfg) (command : String) : Pc :=
  match cfg.decision command with
  | .reject => .finished .denied
  | .askUser => if cfg.gate then .requesting else .finished .denied
  | .execute => .spawning

/-- A new call; `command` is the argument of that name, if the arguments have one. -/
def newCall (cfg : Cfg) (run : String) (tool : ShellTool) (command : Option String) : Call :=
  match command with
  | none => { run, tool, command := "", pc := .finished .badArgs }
  | some raw =>
    let cmd := String.ofList (RustStr.trim raw.toList)
    if cmd.isEmpty then { run, tool, command := cmd, pc := .finished .badArgs }
    else
      match tool with
      | .exec => { run, tool, command := cmd, pc := gatePc cfg cmd }
      | .process => { run, tool, command := cmd, pc := .spawning }

/-- What may happen to one call. -/
inductive Move where
  /-- The pump takes the request and tells the client. -/
  | issue (id : String)
  | pumpReads
  | pumpCancelled
  | pumpDisconnected
  /-- The gate has its answer. -/
  | askReturns
  | askTimeout
  | askCancelled
  | spawn
  | childDone
  | cancelled
  | timedOut
deriving DecidableEq, Repr

/-- The gate waits for an answer. -/
def Pc.asking : Pc → Bool
  | .requesting | .pending _ | .answered _ _ | .decided _ => true
  | _ => false

def Pc.isFinished : Pc → Bool
  | .finished _ => true
  | _ => false

def move (cfg : Cfg) (s : Sys) (k : Nat) (c : Call) : Move → Option Sys
  | .issue id =>
    if c.pc = .requesting ∧ ∀ e ∈ s.issued, e.1 ≠ id then
      some
        ({ s with approvals := s.approvals ++ [(id, k)], issued := s.issued ++ [(id, k)] }.setPc k
          (.pending id))
    else none
  | .pumpReads =>
    match c.pc with
    | .answered _ allow => some (s.setPc k (.decided allow))
    | _ => none
  | .pumpCancelled =>
    match c.pc with
    | .pending _ | .answered _ _ =>
      if c.run ∈ s.cancelled then some ((s.forget k).setPc k (.decided false)) else none
    | _ => none
  | .pumpDisconnected =>
    match c.pc with
    | .pending _ | .answered _ _ =>
      some ({ s.forget k with cancelled := s.cancelled ++ [c.run] }.setPc k (.decided false))
    | _ => none
  | .askReturns =>
    match c.pc with
    | .decided true => some (s.setPc k .spawning)
    | .decided false => some (s.setPc k (.finished .denied))
    | _ => none
  | .askTimeout =>
    if c.pc.asking ∧ cfg.approvalTimeout ≠ 0 then
      some ((s.forget k).setPc k (.finished .denied))
    else none
  | .askCancelled =>
    if c.pc.asking ∧ c.run ∈ s.cancelled then some ((s.forget k).setPc k (.finished .aborted))
    else none
  | .spawn =>
    if c.pc = .spawning then
      some ({ s with spawned := s.spawned ++ [(k, c.command)] }.setPc k .running)
    else none
  | .childDone => if c.pc = .running then some (s.setPc k (.finished .done)) else none
  | .cancelled =>
    if c.tool = .exec ∧ (c.pc = .spawning ∨ c.pc = .running) ∧ c.run ∈ s.cancelled then
      some (s.setPc k (.finished .aborted))
    else none
  | .timedOut =>
    if c.pc.isFinished then none else some ((s.forget k).setPc k (.finished .timedOut))

/-- A client's `approval.reply`, whoever sends it: the first one for an id wakes the pump. -/
def Sys.reply (s : Sys) (id : String) (allow : Bool) : Sys :=
  let s := { s with replies := s.replies ++ [(id, allow)] }
  match s.approvals.find? (·.1 = id) with
  | some (_, k) =>
    { s with
      approvals := s.approvals.filter (·.1 ≠ id)
      calls := s.calls.modify k fun c =>
        if c.pc = .pending id then { c with pc := .answered id allow } else c }
  | none => s

inductive Act where
  | invoke (run : String) (tool : ShellTool) (command : Option String)
  | move (k : Nat) (m : Move)
  | reply (id : String) (allow : Bool)
  | cancel (run : String)
deriving DecidableEq, Repr

def step (cfg : Cfg) (s : Sys) : Act → Option Sys
  | .invoke run tool command => some { s with calls := s.calls ++ [newCall cfg run tool command] }
  | .move k m =>
    match s.calls[k]? with
    | some c => move cfg s k c m
    | none => none
  | .reply id allow => some (s.reply id allow)
  | .cancel run => some { s with cancelled := s.cancelled ++ [run] }

/-! ## What approval is for -/

/-- The user has allowed call `k`. -/
def Approved (s : Sys) (k : Nat) : Prop :=
  ∃ id, (id, k) ∈ s.issued ∧ (id, true) ∈ s.replies

/-- No child runs a command the mode rejects, nor one that needs the user's word without it. -/
def Safe (cfg : Cfg) (s : Sys) : Prop :=
  ∀ e ∈ s.spawned, cfg.decision e.2 ≠ .reject ∧ (cfg.decision e.2 = .askUser → Approved s e.1)

/-- `process` spawns a command that it should have asked about. -/
def Ungated (cfg : Cfg) (s : Sys) : Act → Prop
  | .move k .spawn => ∃ c, s.calls[k]? = some c ∧ c.tool = .process ∧
      cfg.decision c.command ≠ .execute
  | _ => False

/-! ## What the gate guarantees -/

/-- What is known of a call by where it stands. -/
def CallOk (cfg : Cfg) (s : Sys) (k : Nat) (c : Call) : Prop :=
  match c.pc with
  | .requesting => c.tool = .exec ∧ cfg.decision c.command = .askUser
  | .pending id => c.tool = .exec ∧ cfg.decision c.command = .askUser ∧ (id, k) ∈ s.issued
  | .answered id allow =>
    c.tool = .exec ∧ cfg.decision c.command = .askUser ∧ (id, k) ∈ s.issued ∧
      (allow = true → (id, true) ∈ s.replies)
  | .decided allow =>
    c.tool = .exec ∧ cfg.decision c.command = .askUser ∧ (allow = true → Approved s k)
  | .spawning =>
    c.tool = .exec → cfg.decision c.command ≠ .reject ∧
      (cfg.decision c.command = .askUser → Approved s k)
  | .running | .finished _ => True

structure Inv (cfg : Cfg) (s : Sys) : Prop where
  calls : ∀ k c, s.calls[k]? = some c → CallOk cfg s k c
  /-- Only `exec` asks. -/
  issued : ∀ e ∈ s.issued, ∃ c, s.calls[e.2]? = some c ∧ c.tool = .exec

/-- The histories of `s` are part of those of `s'`. -/
structure Extends (s s' : Sys) : Prop where
  issued : ∀ e ∈ s.issued, e ∈ s'.issued
  replies : ∀ e ∈ s.replies, e ∈ s'.replies

theorem Extends.of_eq {s s' : Sys} (hi : s'.issued = s.issued) (hr : s'.replies = s.replies) :
    Extends s s' :=
  ⟨fun _ h => hi ▸ h, fun _ h => hr ▸ h⟩

theorem Extends.refl (s : Sys) : Extends s s := .of_eq rfl rfl

theorem Approved.mono {s s' : Sys} (h : Extends s s') {k : Nat} (ha : Approved s k) :
    Approved s' k := by
  obtain ⟨id, hi, hr⟩ := ha
  exact ⟨id, h.issued _ hi, h.replies _ hr⟩

theorem CallOk.mono {cfg : Cfg} {s s' : Sys} (h : Extends s s') {k : Nat} {c : Call}
    (hc : CallOk cfg s k c) : CallOk cfg s' k c := by
  unfold CallOk at hc ⊢
  split
  · next hpc => simpa only [hpc] using hc
  · next hpc =>
    simp only [hpc] at hc
    exact ⟨hc.1, hc.2.1, h.issued _ hc.2.2⟩
  · next hpc =>
    simp only [hpc] at hc
    exact ⟨hc.1, hc.2.1, h.issued _ hc.2.2.1, fun ha => h.replies _ (hc.2.2.2 ha)⟩
  · next hpc =>
    simp only [hpc] at hc
    exact ⟨hc.1, hc.2.1, fun ha => (hc.2.2 ha).mono h⟩
  · next hpc =>
    simp only [hpc] at hc
    intro ht
    exact ⟨(hc ht).1, fun ha => ((hc ht).2 ha).mono h⟩
  · trivial
  · trivial

theorem Safe.mono {cfg : Cfg} {s s' : Sys} (h : Extends s s') (hsp : s'.spawned = s.spawned)
    (hs : Safe cfg s) : Safe cfg s' := by
  intro e he
  rw [hsp] at he
  exact ⟨(hs e he).1, fun ha => ((hs e he).2 ha).mono h⟩

theorem inv_empty (cfg : Cfg) : Inv cfg .empty :=
  ⟨by simp [Sys.empty], by simp [Sys.empty]⟩

theorem safe_empty (cfg : Cfg) : Safe cfg .empty := by simp [Safe, Sys.empty]

/-! ## One call moves -/

theorem getElem?_setPc (s : Sys) (k j : Nat) (pc : Pc) :
    (s.setPc k pc).calls[j]? =
      (s.calls[j]?).map fun c => if k = j then { c with pc } else c := by
  rw [Sys.setPc, List.getElem?_modify]
  split <;> rfl

/-- After call `k` has moved, only `k` needs to be looked at. -/
theorem Inv.setPc {cfg : Cfg} {s s' : Sys} {k : Nat} {c : Call} {pc : Pc} (hs : Inv cfg s)
    (hk : s.calls[k]? = some c) (hcalls : s'.calls = s.calls) (hext : Extends s s')
    (hissued : ∀ e ∈ s'.issued, e ∈ s.issued ∨ e.2 = k ∧ c.tool = .exec)
    (hok : CallOk cfg s' k { c with pc }) : Inv cfg (s'.setPc k pc) := by
  constructor
  · intro j d hj
    rw [getElem?_setPc, hcalls, Option.map_eq_some_iff] at hj
    obtain ⟨d, hd, rfl⟩ := hj
    by_cases hkj : k = j
    · subst hkj
      obtain rfl : c = d := by simpa [hk] using hd
      rw [if_pos rfl]
      exact hok
    · rw [if_neg hkj]
      exact (hs.calls j d hd).mono hext
  · intro e he
    have hold : ∃ d, s.calls[e.2]? = some d ∧ d.tool = .exec := by
      rcases hissued e he with h | ⟨h, ht⟩
      · exact hs.issued e h
      · exact ⟨c, h ▸ hk, ht⟩
    obtain ⟨d, hd, ht⟩ := hold
    refine ⟨if k = e.2 then { d with pc } else d, ?_, ?_⟩
    · rw [getElem?_setPc, hcalls, hd]
      rfl
    · split <;> exact ht

/-- How a call goes on when nothing is issued or spawned. -/
inductive Next : Pc → Pc → Prop
  | reads (id : String) (allow : Bool) : Next (.answered id allow) (.decided allow)
  | unanswered (id : String) : Next (.pending id) (.decided false)
  | unread (id : String) (allow : Bool) : Next (.answered id allow) (.decided false)
  | allowed : Next (.decided true) .spawning
  | ends (pc : Pc) (result : ToolResult) : Next pc (.finished result)

/-- What a move of call `k` can turn the system into. -/
inductive Moved (s : Sys) (k : Nat) (c : Call) : Move → Sys → Prop
  | quiet {m : Move} {s' : Sys} {pc : Pc} (hm : m ≠ .spawn) (hnext : Next c.pc pc)
      (hcalls : s'.calls = s.calls) (hissued : s'.issued = s.issued)
      (hreplies : s'.replies = s.replies) (hspawned : s'.spawned = s.spawned) :
      Moved s k c m (s'.setPc k pc)
  | issue {id : String} (hpc : c.pc = .requesting) :
      Moved s k c (.issue id)
        ({ s with approvals := s.approvals ++ [(id, k)], issued := s.issued ++ [(id, k)] }.setPc k
          (.pending id))
  | spawn (hpc : c.pc = .spawning) :
      Moved s k c .spawn ({ s with spawned := s.spawned ++ [(k, c.command)] }.setPc k .running)

theorem moved_of_move {cfg : Cfg} {s t : Sys} {k : Nat} {c : Call} {m : Move}
    (h : move cfg s k c m = some t) : Moved s k c m t := by
  cases m with
  | issue id =>
    simp only [move, Option.ite_none_right_eq_some, Option.some.injEq] at h
    obtain ⟨⟨hpc, -⟩, rfl⟩ := h
    exact .issue hpc
  | pumpReads =>
    simp only [move] at h
    split at h
    · next id allow hpc =>
      cases h
      exact .quiet nofun (hpc ▸ .reads id allow) rfl rfl rfl rfl
    · cases h
  | pumpCancelled =>
    simp only [move] at h
    split at h
    · next id hpc =>
      simp only [Option.ite_none_right_eq_some, Option.some.injEq] at h
      obtain ⟨-, rfl⟩ := h
      exact .quiet nofun (hpc ▸ .unanswered id) rfl rfl rfl rfl
    · next id allow hpc =>
      simp only [Option.ite_none_right_eq_some, Option.some.injEq] at h
      obtain ⟨-, rfl⟩ := h
      exact .quiet nofun (hpc ▸ .unread id allow) rfl rfl rfl rfl
    · cases h
  | pumpDisconnected =>
    simp only [move] at h
    split at h
    · next id hpc =>
      cases h
      exact .quiet nofun (hpc ▸ .unanswered id) rfl rfl rfl rfl
    · next id allow hpc =>
      cases h
      exact .quiet nofun (hpc ▸ .unread id allow) rfl rfl rfl rfl
    · cases h
  | askReturns =>
    simp only [move] at h
    split at h
    · next hpc =>
      cases h
      exact .quiet nofun (hpc ▸ .allowed) rfl rfl rfl rfl
    · cases h
      exact .quiet nofun (.ends _ _) rfl rfl rfl rfl
    · cases h
  | spawn =>
    simp only [move, Option.ite_none_right_eq_some, Option.some.injEq] at h
    obtain ⟨hpc, rfl⟩ := h
    exact .spawn hpc
  | askTimeout =>
    simp only [move, Option.ite_none_right_eq_some, Option.some.injEq] at h
    obtain ⟨-, rfl⟩ := h
    exact .quiet nofun (.ends _ _) rfl rfl rfl rfl
  | askCancelled =>
    simp only [move, Option.ite_none_right_eq_some, Option.some.injEq] at h
    obtain ⟨-, rfl⟩ := h
    exact .quiet nofun (.ends _ _) rfl rfl rfl rfl
  | childDone =>
    simp only [move, Option.ite_none_right_eq_some, Option.some.injEq] at h
    obtain ⟨-, rfl⟩ := h
    exact .quiet nofun (.ends _ _) rfl rfl rfl rfl
  | cancelled =>
    simp only [move, Option.ite_none_right_eq_some, Option.some.injEq] at h
    obtain ⟨-, rfl⟩ := h
    exact .quiet nofun (.ends _ _) rfl rfl rfl rfl
  | timedOut =>
    simp only [move] at h
    split at h
    · cases h
    · cases h
      exact .quiet nofun (.ends _ _) rfl rfl rfl rfl

theorem Moved.extends {s t : Sys} {k : Nat} {c : Call} {m : Move} (h : Moved s k c m t) :
    Extends s t := by
  cases h with
  | quiet hm hnext hcalls hissued hreplies hspawned => exact .of_eq hissued hreplies
  | issue hpc => exact ⟨fun _ he => List.mem_append_left _ he, fun _ he => he⟩
  | spawn hpc => exact .of_eq rfl rfl

theorem Moved.spawned {s t : Sys} {k : Nat} {c : Call} {m : Move} (h : Moved s k c m t)
    (hm : m ≠ .spawn) : t.spawned = s.spawned := by
  cases h with
  | quiet hm hnext hcalls hissued hreplies hspawned => exact hspawned
  | issue hpc => rfl
  | spawn hpc => exact absurd rfl hm

/-- A call that goes on is as well placed as before. -/
theorem CallOk.next {cfg : Cfg} {s : Sys} {k : Nat} {c : Call} {pc : Pc} (h : CallOk cfg s k c)
    (hnext : Next c.pc pc) : CallOk cfg s k { c with pc } := by
  obtain ⟨run, tool, command, pc₀⟩ := c
  dsimp only at hnext
  cases hnext with
  | reads id allow =>
    obtain ⟨ht, hd, hi, ha⟩ := h
    exact ⟨ht, hd, fun h => ⟨id, hi, ha h⟩⟩
  | unanswered id =>
    obtain ⟨ht, hd, -⟩ := h
    exact ⟨ht, hd, nofun⟩
  | unread id allow =>
    obtain ⟨ht, hd, -⟩ := h
    exact ⟨ht, hd, nofun⟩
  | allowed =>
    obtain ⟨ht, hd, ha⟩ := h
    intro _
    exact ⟨by simp [hd], fun _ => ha rfl⟩
  | ends pc result => trivial

theorem inv_move {cfg : Cfg} {s t : Sys} {k : Nat} {c : Call} {m : Move} (hs : Inv cfg s)
    (hk : s.calls[k]? = some c) (h : move cfg s k c m = some t) : Inv cfg t := by
  have hok := hs.calls k c hk
  cases moved_of_move h with
  | quiet hm hnext hcalls hissued hreplies hspawned =>
    have hext := Extends.of_eq hissued hreplies
    exact hs.setPc hk hcalls hext (fun e he => .inl (hissued ▸ he)) ((hok.next hnext).mono hext)
  | issue hpc =>
    simp only [CallOk, hpc] at hok
    refine hs.setPc hk rfl ⟨by simp +contextual, by simp⟩ ?_ ⟨hok.1, hok.2, by simp⟩
    intro e he
    rw [List.mem_append, List.mem_singleton] at he
    exact he.imp_right fun h => ⟨by rw [h], hok.1⟩
  | spawn hpc => exact hs.setPc hk rfl (.of_eq rfl rfl) (fun e he => .inl he) trivial

/-! ## Every step -/

theorem newCall_ok (cfg : Cfg) (s : Sys) (k : Nat) (run : String) (tool : ShellTool)
    (command : Option String) : CallOk cfg s k (newCall cfg run tool command) := by
  cases command with
  | none => trivial
  | some raw =>
    simp only [newCall]
    split
    · trivial
    · cases tool with
      | process => nofun
      | exec =>
        cases hd : cfg.decision (String.ofList (RustStr.trim raw.toList)) with
        | reject => simp only [CallOk, gatePc, hd]
        | execute => simp [CallOk, gatePc, hd]
        | askUser =>
          by_cases hg : cfg.gate = true
          · simp only [CallOk, gatePc, hd, hg, if_true, and_self]
          · simp only [CallOk, gatePc, hd, hg, if_false, Bool.false_eq_true]

theorem inv_invoke {cfg : Cfg} {s : Sys} (hs : Inv cfg s) (run : String) (tool : ShellTool)
    (command : Option String) :
    Inv cfg { s with calls := s.calls ++ [newCall cfg run tool command] } := by
  constructor
  · intro j d hj
    rw [List.getElem?_append] at hj
    split at hj
    · exact (hs.calls j d hj).mono (.of_eq rfl rfl)
    · rw [List.getElem?_singleton, Option.ite_none_right_eq_some, Option.some_inj] at hj
      rw [← hj.2]
      exact newCall_ok cfg _ j run tool command
  · intro e he
    obtain ⟨c, hc, ht⟩ := hs.issued e he
    exact ⟨c, by rw [List.getElem?_append_left (List.getElem?_eq_some_iff.1 hc).1, hc], ht⟩

/-- The waiting call knows of the reply. -/
theorem CallOk.answered {cfg : Cfg} {s : Sys} {k : Nat} {c : Call} {id : String} {allow : Bool}
    (h : CallOk cfg s k c) (hpc : c.pc = .pending id) (hr : (id, allow) ∈ s.replies) :
    CallOk cfg s k { c with pc := .answered id allow } := by
  simp only [CallOk, hpc] at h
  exact ⟨h.1, h.2.1, h.2.2, fun ha => ha ▸ hr⟩

theorem inv_reply {cfg : Cfg} {s : Sys} (hs : Inv cfg s) (id : String) (allow : Bool) :
    Inv cfg (s.reply id allow) := by
  have hext : Extends s { s with replies := s.replies ++ [(id, allow)] } :=
    ⟨by simp, by simp +contextual⟩
  have hplain : Inv cfg { s with replies := s.replies ++ [(id, allow)] } :=
    ⟨fun k c hk => (hs.calls k c hk).mono hext, hs.issued⟩
  simp only [Sys.reply]
  split
  · next k hfind =>
    have hget : ∀ j : Nat, (s.calls.modify k fun c =>
        if c.pc = .pending id then { c with pc := .answered id allow } else c)[j]? =
        (s.calls[j]?).map fun c => if k = j then
          if c.pc = .pending id then { c with pc := .answered id allow } else c else c := by
      intro j
      rw [List.getElem?_modify]
      rfl
    constructor
    · intro j d hj
      rw [hget, Option.map_eq_some_iff] at hj
      obtain ⟨c, hc, rfl⟩ := hj
      have hok := hplain.calls j c hc
      split
      · split
        · next hpc => exact hok.answered hpc (by simp)
        · exact hok
      · exact hok
    · intro e he
      obtain ⟨c, hc, ht⟩ := hs.issued e he
      refine ⟨_, by rw [hget, hc]; rfl, ?_⟩
      dsimp only
      split
      · split <;> exact ht
      · exact ht
  · exact hplain

theorem inv_step {cfg : Cfg} {s t : Sys} {a : Act} (hs : Inv cfg s) (h : step cfg s a = some t) :
    Inv cfg t := by
  cases a with
  | invoke run tool command =>
    cases h
    exact inv_invoke hs run tool command
  | move k m =>
    simp only [step] at h
    split at h
    · next c hk => exact inv_move hs hk h
    · cases h
  | reply id allow =>
    cases h
    exact inv_reply hs id allow
  | cancel run =>
    cases h
    exact ⟨fun k c hk => (hs.calls k c hk).mono (.refl s), hs.issued⟩

theorem extends_reply (s : Sys) (id : String) (allow : Bool) :
    Extends s (s.reply id allow) ∧ (s.reply id allow).spawned = s.spawned := by
  simp only [Sys.reply]
  split
  · exact ⟨⟨by simp, by simp +contextual⟩, rfl⟩
  · exact ⟨⟨by simp, by simp +contextual⟩, rfl⟩

/-- A child that is spawned is safe exactly if its call is not an ungated one. -/
theorem safe_spawn_iff {cfg : Cfg} {s : Sys} {k : Nat} {c : Call} (hs : Inv cfg s)
    (hsafe : Safe cfg s) (hk : s.calls[k]? = some c) (hpc : c.pc = .spawning) :
    Safe cfg ({ s with spawned := s.spawned ++ [(k, c.command)] }.setPc k .running) ↔
      ¬ Ungated cfg s (.move k .spawn) := by
  have hsplit : Safe cfg ({ s with spawned := s.spawned ++ [(k, c.command)] }.setPc k .running) ↔
      cfg.decision c.command ≠ .reject ∧
        (cfg.decision c.command = .askUser → Approved s k) := by
    constructor
    · intro h
      exact h (k, c.command) (by simp [Sys.setPc])
    · intro h e he
      rcases List.mem_append.1 he with he | he
      · exact hsafe e he
      · obtain rfl : e = (k, c.command) := by simpa using he
        exact h
  have hun : Ungated cfg s (.move k .spawn) ↔
      c.tool = .process ∧ cfg.decision c.command ≠ .execute := by
    simp [Ungated, hk]
  rw [hsplit, hun]
  cases ht : c.tool with
  | exec =>
    -- a call of `exec` gets here through the gate
    have hok := hs.calls k c hk
    simp only [CallOk, hpc] at hok
    exact iff_of_true (hok ht) (by simp)
  | process =>
    -- a call of `process` never asked, so nobody can have allowed it
    have hnever : ¬ Approved s k := by
      rintro ⟨id, hi, -⟩
      obtain ⟨d, hd, hexec⟩ := hs.issued (id, k) hi
      obtain rfl : c = d := by simpa [hk] using hd
      simp [ht] at hexec
    cases hd : cfg.decision c.command with
    | execute => simp
    | askUser => simp [hnever]
    | reject => simp

theorem safe_step_iff {cfg : Cfg} {s t : Sys} {a : Act} (hs : Inv cfg s) (hsafe : Safe cfg s)
    (h : step cfg s a = some t) : Safe cfg t ↔ ¬ Ungated cfg s a := by
  cases a with
  | invoke run tool command =>
    cases h
    exact iff_of_true (hsafe.mono (.of_eq rfl rfl) rfl) id
  | move k m =>
    simp only [step] at h
    split at h
    · next c hk =>
      have hmoved := moved_of_move h
      by_cases hm : m = .spawn
      · subst hm
        cases hmoved with
        | quiet hm => exact absurd rfl hm
        | spawn hpc => exact safe_spawn_iff hs hsafe hk hpc
      · refine iff_of_true (hsafe.mono hmoved.extends (hmoved.spawned hm)) ?_
        cases m with
        | spawn => exact absurd rfl hm
        | _ => exact id
    · cases h
  | reply id allow =>
    cases h
    obtain ⟨hext, hsp⟩ := extends_reply s id allow
    exact iff_of_true (hsafe.mono hext hsp) (fun h => h)
  | cancel run =>
    cases h
    exact iff_of_true (hsafe.mono (.of_eq rfl rfl) rfl) id

/-- Whatever the order of calls, replies, timeouts and aborts: no child runs a command without
the approval it needs, exactly as long as `process` spawns only commands that need none. -/
theorem safe_iff (cfg : Cfg) (acts : List Act) :
    Steps.AllStates (step cfg) (Safe cfg) .empty acts ↔
      Steps.AllSteps (step cfg) (fun s a _ => ¬ Ungated cfg s a) .empty acts :=
  Steps.allStates_iff_allSteps (fun _ _ _ hs h => inv_step hs h)
    (fun _ _ _ hs hsafe h => safe_step_iff hs hsafe h) (inv_empty cfg) (safe_empty cfg) acts

/-- The mode that rejects every command. -/
def denyCfg : Cfg :=
  { mode := .deny, approvalTimeout := 300, gate := true, toLowercase := List.map Char.toLower }

/-- In the mode that rejects every command, `process` runs one. -/
theorem safe_fails_on_process :
    ¬ Steps.AllStates (step denyCfg) (Safe denyCfg) .empty
      [.invoke "r" .process (some "rm -rf /"), .move 0 .spawn] := by
  intro h
  have hrun : (Steps.exec (step denyCfg) .empty
      [.invoke "r" .process (some "rm -rf /"), .move 0 .spawn]).map (·.spawned) =
      some [(0, "rm -rf /")] := by decide
  obtain ⟨t, ht, hsp⟩ := Option.map_eq_some_iff.1 hrun
  have hsafe := (Steps.allStates_iff.1 h) _ t (List.prefix_refl _) ht
  exact (hsafe (0, "rm -rf /") (by simp [hsp])).1 (by decide)

end Approval

end OhMyClaw
