import Mathlib.Data.List.Perm.Basic
import OhMyClaw.Tools.Granted
import OhMyClaw.Tui.Screen

/-!
# What the user has approved

A command that needs the user's word, and the terminal the user sits at.  The request goes out as an event of the
run, over the connection the run was asked for on; the terminal shows it; the user presses a key; the answer goes
back over the same connection.  Everything else on the way, other calls, other runs, what else is typed, timeouts
and aborts, may come in between.

    approved_shown     a command that needed the user's word was on the screen, as it was run, when the user said
                       yes to it, and that yes was for this one call
-/

namespace OhMyClaw

namespace Tui

open Approval (Sys Call)

/-- The bounds of the tools, and which runs belong to the terminal: their events come over its connection. -/
structure Setting where
  cfg : Approval.Cfg
  mine : String → Bool
  sessionOf : String → String

def riskText : RiskClass → String
  | .safe => "Safe"
  | .needsApproval => "NeedsApproval"
  | .blocked => "Blocked"

/-- What the pump of a call sends. -/
def Setting.request (σ : Setting) (id : String) (c : Call) : Proto.Event :=
  .approval (σ.sessionOf c.run) id c.run
    ("请求执行命令（风险: " ++ riskText (classifyCommand σ.cfg.toLowercase c.command) ++ "）") c.command

structure Desk where
  sys : Sys
  /-- What pumps are about to send: the connection has room for it yet, or not. -/
  sending : List Proto.Event
  /-- What the terminal has not read yet. -/
  wire : List Proto.Frame
  terminal : Terminal
  /-- What the terminal has sent and the daemon has not read yet. -/
  requests : List (Req Method)

/-- The id an approval is asked for under. -/
def approvalId? : Proto.Event → Option String
  | .approval _ id _ _ _ => some id
  | _ => none

def frameId? : Proto.Frame → Option String
  | .event ev => approvalId? ev
  | _ => none

namespace Desk

inductive Act where
  /-- Something happens to a call, of whichever run. -/
  | tools (a : Approval.Act)
  /-- The connection takes an event. -/
  | sent (i : Nat)
  /-- The pump is gone before it does. -/
  | unsent (i : Nat)
  /-- The daemon sends something else. -/
  | other (f : Proto.Frame)
  | read
  | user (code : KeyCode) (mods : Mods)
  /-- The terminal does something of its own. -/
  | idle (a : Terminal.Act)
  /-- The daemon reads a request. -/
  | serve
  /-- Another client sends an answer. -/
  | elsewhere (id : String) (allow : Bool)
deriving DecidableEq, Repr

variable (σ : Setting) (formatUsage : UInt32 → UInt32 → String)

/-- What is to be sent after a move of a call. -/
def announced (sys : Sys) : Approval.Act → List Proto.Event
  | .move k (.issue id) => ((sys.calls[k]?.filter fun c => σ.mine c.run).map (σ.request id)).toList
  | _ => []

/-- Replies come from clients only. -/
def isReply : Approval.Act → Bool
  | .reply _ _ => true
  | _ => false

/-- Keys and frames come from without. -/
def isDriven : Terminal.Act → Bool
  | .key _ _ | .frame _ => true
  | _ => false

def served (sys : Sys) (req : Req Method) : Sys :=
  match req.method with
  | .approvalReply id allow => sys.reply id allow
  | _ => sys

def step (d : Desk) : Act → Option Desk
  | .tools a =>
    if isReply a then none
    else (Approval.step σ.cfg d.sys a).map fun sys => { d with sys, sending := d.sending ++ announced σ d.sys a }
  | .sent i =>
    d.sending[i]?.map fun ev => { d with sending := d.sending.eraseIdx i, wire := d.wire ++ [.event ev] }
  | .unsent i => some { d with sending := d.sending.eraseIdx i }
  | .other f => if (frameId? f).isSome then none else some { d with wire := d.wire ++ [f] }
  | .read =>
    match d.wire with
    | [] => none
    | f :: wire => (Terminal.step formatUsage d.terminal (.frame f)).map fun t => { d with wire, terminal := t }
  | .user code mods =>
    (Terminal.step formatUsage d.terminal (.key code mods)).map fun t =>
      { d with
        terminal := t
        requests := d.requests ++ (d.terminal.screen.onKey d.terminal.now code mods).2.toList }
  | .idle a =>
    if isDriven a then none else (Terminal.step formatUsage d.terminal a).map fun t => { d with terminal := t }
  | .serve =>
    match d.requests with
    | [] => none
    | req :: requests => some { d with requests, sys := served d.sys req }
  | .elsewhere id allow => some { d with sys := d.sys.reply id allow }

def start (t : Terminal) : Desk := { sys := .empty, sending := [], wire := [], terminal := t, requests := [] }

/-! ## What the user sees and says -/

/-- What is on the screen, what the user says to it, and what another client has said. -/
inductive Sight where
  | shown (id run command : String)
  | said (id : String) (allow : Bool)
  | elsewhere (id : String) (allow : Bool)
deriving DecidableEq, Repr

def Sight.ask : Sight → Option Ask
  | .shown id _ _ => some (.asked id)
  | .said id _ => some (.answered id)
  | .elsewhere _ _ => none

def shownOf (s : Screen) : Proto.Frame → List Sight
  | .event (.approval session id run summary command) =>
    if s.shows (.approval session id run summary command) then [.shown id run command] else []
  | _ => []

def saidOf (req : Req Method) : List Sight :=
  match req.method with
  | .approvalReply id allow => [.said id allow]
  | _ => []

def sights (d : Desk) (a : Act) (_ : Desk) : List Sight :=
  match a with
  | .read => d.wire.head?.toList.flatMap (shownOf d.terminal.screen)
  | .user code mods => (d.terminal.screen.onKey d.terminal.now code mods).2.toList.flatMap saidOf
  | .elsewhere id allow => [.elsewhere id allow]
  | _ => []

/-- What was asked of the user, and what was answered. -/
def asks (log : List Sight) : List Ask := log.filterMap Sight.ask

def askedIds (log : List Sight) : List String := (asks log).filterMap Ask.asked?

/-- What is asked and has not been seen. -/
def flying (d : Desk) : List String := d.sending.filterMap approvalId? ++ d.wire.filterMap frameId?

theorem mem_askedIds {log : List Sight} {id : String} (h : id ∈ askedIds log) :
    ∃ run command, .shown id run command ∈ log := by
  simp only [askedIds, asks, List.mem_filterMap] at h
  obtain ⟨ask, ⟨x, hx, hask⟩, hid⟩ := h
  cases x with
  | shown id' run command =>
    obtain rfl := Option.some.inj hask
    obtain rfl : id' = id := Option.some.inj hid
    exact ⟨run, command, hx⟩
  | said id' allow =>
    obtain rfl := Option.some.inj hask
    cases hid
  | elsewhere id' allow => cases hask

/-! ## What holds -/

/-- The id was issued for a call of this run, with this command. -/
def Issued (sys : Sys) (id run command : String) : Prop :=
  ∃ (k : Nat) (c : Call), (id, k) ∈ sys.issued ∧ sys.calls[k]? = some c ∧ c.run = run ∧ c.command = command

/-- An approval that is asked for is that of a call. -/
def Genuine (sys : Sys) : Proto.Event → Prop
  | .approval _ id run _ command => Issued sys id run command
  | _ => True

structure Inv (log : List Sight) (d : Desk) : Prop where
  gate : Approval.Inv σ.cfg d.sys
  granted : Approval.Granted σ.cfg d.sys
  numbered : Approval.Numbered σ.cfg d.sys
  sending : ∀ ev ∈ d.sending, Genuine d.sys ev
  wire : ∀ ev, .event ev ∈ d.wire → Genuine d.sys ev
  shown : ∀ id run command, .shown id run command ∈ log → Issued d.sys id run command
  once : (d.flying ++ askedIds log).Nodup
  pending : d.terminal.screen.pendingApproval = Ask.pending (asks log)
  inOrder : Ask.InOrder (asks log)
  requests : ∀ req ∈ d.requests, ∀ id allow, req.method = .approvalReply id allow → .said id allow ∈ log
  replies : ∀ id allow, (id, allow) ∈ d.sys.replies → .said id allow ∈ log ∨ .elsewhere id allow ∈ log

variable {σ formatUsage} {sys sys' : Sys} {d d' : Desk} {log : List Sight}

theorem Issued.mono {id run command : String} (hgrows : Approval.Grows sys sys') (h : Issued sys id run command) :
    Issued sys' id run command := by
  obtain ⟨k, c, hissued, hc, hrun, hcommand⟩ := h
  obtain ⟨c', hc', hrun', -, hcommand', -⟩ := hgrows.calls k c hc
  exact ⟨k, c', hgrows.histories.issued _ hissued, hc', hrun'.trans hrun, hcommand'.trans hcommand⟩

theorem Genuine.mono {ev : Proto.Event} (hgrows : Approval.Grows sys sys') (h : Genuine sys ev) : Genuine sys' ev := by
  cases ev with
  | approval session id run summary command => exact Issued.mono hgrows h
  | _ => trivial

theorem Genuine.issued {ev : Proto.Event} {id : String} (h : Genuine sys ev) (hid : approvalId? ev = some id) :
    id ∈ sys.issued.map (·.1) := by
  cases ev with
  | approval session id' run summary command =>
    obtain rfl : id' = id := Option.some.inj hid
    obtain ⟨k, c, hissued, -⟩ := h
    exact List.mem_map.2 ⟨_, hissued, rfl⟩
  | _ => cases hid

/-- Whatever is asked, seen or not, has been issued. -/
theorem Inv.issued (h : Inv σ log d) {id : String} (hid : id ∈ d.flying ++ askedIds log) :
    id ∈ d.sys.issued.map (·.1) := by
  simp only [flying, List.mem_append, List.mem_filterMap] at hid
  obtain (⟨ev, hev, hid⟩ | ⟨f, hf, hid⟩) | hid := hid
  · exact (h.sending ev hev).issued hid
  · cases f with
    | event ev => exact (h.wire ev hf).issued hid
    | _ => cases hid
  · obtain ⟨run, command, hshown⟩ := mem_askedIds hid
    obtain ⟨k, c, hissued, -⟩ := h.shown id run command hshown
    exact List.mem_map.2 ⟨_, hissued, rfl⟩

/-! ## The daemon -/

/-- The calls go on. -/
theorem Inv.grow (h : Inv σ log d) (hgrows : Approval.Grows d.sys sys) (hgate : Approval.Inv σ.cfg sys)
    (hgranted : Approval.Granted σ.cfg sys) (hnumbered : Approval.Numbered σ.cfg sys)
    (hreplies : ∀ id allow, (id, allow) ∈ sys.replies → .said id allow ∈ log ∨ .elsewhere id allow ∈ log) :
    Inv σ log { d with sys } :=
  { h with
    gate := hgate
    granted := hgranted
    numbered := hnumbered
    sending := fun ev hev => (h.sending ev hev).mono hgrows
    wire := fun ev hev => (h.wire ev hev).mono hgrows
    shown := fun id run command hshown => (h.shown id run command hshown).mono hgrows
    replies := hreplies }

theorem inv_reply {id : String} {allow : Bool} (h : Inv σ log d)
    (hlog : .said id allow ∈ log ∨ .elsewhere id allow ∈ log) : Inv σ log { d with sys := d.sys.reply id allow } := by
  have hstep : Approval.step σ.cfg d.sys (.reply id allow) = some (d.sys.reply id allow) := rfl
  refine h.grow (Approval.grows_step hstep) (Approval.inv_step h.gate hstep) (Approval.granted_step h.gate h.granted hstep)
    (Approval.numbered_step h.gate h.numbered hstep) fun id' allow' hmem => ?_
  rw [Approval.reply_replies, List.mem_append, List.mem_singleton] at hmem
  obtain hmem | heq := hmem
  · exact h.replies id' allow' hmem
  · cases heq
    exact hlog

theorem inv_announce {evs : List Proto.Event} (h : Inv σ log d) (hgenuine : ∀ ev ∈ evs, Genuine d.sys ev)
    (hnodup : (evs.filterMap approvalId?).Nodup) (hfresh : ∀ id ∈ evs.filterMap approvalId?, id ∉ d.flying ++ askedIds log) :
    Inv σ log { d with sending := d.sending ++ evs } :=
  { h with
    sending := fun ev hev => (List.mem_append.1 hev).elim (h.sending ev) (hgenuine ev)
    once := by
      have hperm : (evs.filterMap approvalId? ++ (d.flying ++ askedIds log)).Perm
          (flying { d with sending := d.sending ++ evs } ++ askedIds log) := by
        simp only [flying, List.filterMap_append, ← List.append_assoc]
        exact (List.perm_append_comm.append_right _).append_right _
      refine hperm.nodup_iff.1 (List.nodup_append.2 ⟨hnodup, h.once, fun id hid id' hid' => ?_⟩)
      rintro rfl
      exact hfresh id hid hid' }

theorem announced_cases (σ : Setting) (sys : Sys) (a : Approval.Act) : announced σ sys a = [] ∨ ∃ (k : Nat) (id : String) (c : Call),
    a = .move k (.issue id) ∧ sys.calls[k]? = some c ∧ announced σ sys a = [σ.request id c] := by
  unfold announced
  split
  · next k id =>
    cases hc : sys.calls[k]? with
    | none => exact .inl rfl
    | some c =>
      by_cases hmine : σ.mine c.run
      · exact .inr ⟨k, id, c, rfl, hc, by simp [hmine]⟩
      · exact .inl (by simp [hmine])
  · exact .inl rfl

theorem inv_tools {a : Approval.Act} (h : Inv σ log d) (hreply : isReply a = false)
    (hstep : Approval.step σ.cfg d.sys a = some sys) :
    Inv σ log { d with sys, sending := d.sending ++ announced σ d.sys a } := by
  have hnoReply : ∀ id allow, a ≠ .reply id allow := by
    rintro id allow rfl
    cases hreply
  have hgrows := Approval.grows_step hstep
  have hsys : Inv σ log { d with sys } := by
    refine h.grow hgrows (Approval.inv_step h.gate hstep) (Approval.granted_step h.gate h.granted hstep)
      (Approval.numbered_step h.gate h.numbered hstep) ?_
    rw [Approval.replies_step hnoReply hstep]
    exact h.replies
  obtain hnone | ⟨k, id, c, rfl, hc, hone⟩ := announced_cases σ d.sys a
  · rw [hnone, List.append_nil]
    exact hsys
  · obtain ⟨k', id', c', heq, -, -, hfresh, hissued, -⟩ | ⟨hno, -⟩ := Approval.issued_step hstep
    · cases heq
      have hgenuine : Genuine sys (σ.request id c) := by
        obtain ⟨e, he, hrun, -, hcommand, -⟩ := hgrows.calls k c hc
        exact ⟨k, e, by simp [hissued], he, hrun, hcommand⟩
      rw [hone]
      refine inv_announce hsys (by simpa using hgenuine) (by simp [Setting.request, approvalId?]) fun id' hid' hmem => ?_
      obtain rfl : id' = id := by simpa [Setting.request, approvalId?] using hid'
      obtain ⟨e, he, hid⟩ := List.mem_map.1 (h.issued hmem)
      exact hfresh e he hid
    · exact absurd rfl (hno k id)

/-! ## The connection -/

theorem inv_sent {i : Nat} {ev : Proto.Event} (h : Inv σ log d) (hi : d.sending[i]? = some ev) :
    Inv σ log { d with sending := d.sending.eraseIdx i, wire := d.wire ++ [.event ev] } := by
  obtain ⟨hlt, rfl⟩ := List.getElem?_eq_some_iff.1 hi
  refine { h with
    sending := fun ev hev => h.sending ev (List.mem_of_mem_eraseIdx hev)
    wire := fun ev hev => ?_
    once := ?_ }
  · obtain hev | hev := List.mem_append.1 hev
    · exact h.wire ev hev
    · obtain rfl := Proto.Frame.event.inj (List.mem_singleton.1 hev)
      exact h.sending _ (List.getElem_mem hlt)
  · have hperm : (flying { d with sending := d.sending.eraseIdx i, wire := d.wire ++ [.event d.sending[i]] }).Perm
        d.flying := by
      have hframe : [Proto.Frame.event d.sending[i]].filterMap frameId? = [d.sending[i]].filterMap approvalId? := by
        simp [List.filterMap_cons, frameId?]
      simp only [flying, List.filterMap_append, hframe]
      calc (d.sending.eraseIdx i).filterMap approvalId? ++
            (d.wire.filterMap frameId? ++ [d.sending[i]].filterMap approvalId?)
        _ = (d.sending.eraseIdx i).filterMap approvalId? ++ d.wire.filterMap frameId? ++
            [d.sending[i]].filterMap approvalId? := (List.append_assoc ..).symm
        List.Perm _ ([d.sending[i]].filterMap approvalId? ++
            ((d.sending.eraseIdx i).filterMap approvalId? ++ d.wire.filterMap frameId?)) := List.perm_append_comm
        _ = (d.sending[i] :: d.sending.eraseIdx i).filterMap approvalId? ++ d.wire.filterMap frameId? := by
          rw [← List.append_assoc, ← List.filterMap_append]
          rfl
        List.Perm _ (d.sending.filterMap approvalId? ++ d.wire.filterMap frameId?) :=
          ((List.getElem_cons_eraseIdx_perm hlt).filterMap _).append_right _
    exact (hperm.append_right _).nodup_iff.2 h.once

theorem inv_unsent (h : Inv σ log d) (i : Nat) : Inv σ log { d with sending := d.sending.eraseIdx i } :=
  { h with
    sending := fun ev hev => h.sending ev (List.mem_of_mem_eraseIdx hev)
    once := by
      have hsub : (flying { d with sending := d.sending.eraseIdx i }).Sublist d.flying :=
        ((List.eraseIdx_sublist _ _).filterMap _).append_right _
      exact h.once.sublist (hsub.append_right _) }

theorem inv_other {f : Proto.Frame} (h : Inv σ log d) (hf : frameId? f = none) :
    Inv σ log { d with wire := d.wire ++ [f] } :=
  { h with
    wire := fun ev hev => by
      obtain hev | hev := List.mem_append.1 hev
      · exact h.wire ev hev
      · obtain rfl := List.mem_singleton.1 hev
        cases ev with
        | approval session id run summary command => cases hf
        | _ => trivial
    once := by
      have hsame : flying { d with wire := d.wire ++ [f] } = d.flying := by simp [flying, hf]
      rw [hsame]
      exact h.once }

/-! ## The terminal -/

theorem asks_append (log more : List Sight) : asks (log ++ more) = asks log ++ asks more := List.filterMap_append

/-- What a frame does to the approval that is waited for. -/
theorem reads_cases (formatUsage : UInt32 → UInt32 → String) (s : Screen) (f : Proto.Frame) :
    (shownOf s f = [] ∧ (s.onFrame formatUsage f).pendingApproval = s.pendingApproval) ∨
      ∃ session id run summary command, f = .event (.approval session id run summary command) ∧
        shownOf s f = [.shown id run command] ∧ (s.onFrame formatUsage f).pendingApproval = some id := by
  cases f with
  | req r => exact .inl ⟨rfl, rfl⟩
  | res r =>
    obtain ⟨id, result⟩ := r
    cases result with
    | err e => exact .inl ⟨rfl, rfl⟩
    | ok value =>
      cases value with
      | command result => exact .inl ⟨rfl, (Terminal.pending_onCommand s result).1⟩
      | _ => exact .inl ⟨rfl, rfl⟩
  | event ev =>
    by_cases hshows : s.shows ev
    · have hevent : s.onFrame formatUsage (.event ev) = s.onShown formatUsage ev := if_pos hshows
      rw [hevent]
      cases ev with
      | approval session id run summary command =>
        exact .inr ⟨session, id, run, summary, command, rfl, if_pos hshows, rfl⟩
      | lifecycle session run phase => cases phase <;> exact .inl ⟨rfl, rfl⟩
      | tool session run callId phase => cases phase <;> exact .inl ⟨rfl, rfl⟩
      | proactive session kind text source =>
        refine .inl ⟨rfl, ?_⟩
        rw [Screen.onShown]
        split <;> rfl
      | reasoning session run delta =>
        refine .inl ⟨rfl, ?_⟩
        rw [Screen.onShown]
        split <;> rfl
      | assistant _ _ _ | userInput _ _ _ _ | task _ _ _ | usage _ _ _ => exact .inl ⟨rfl, rfl⟩
    · have hevent : s.onFrame formatUsage (.event ev) = s := if_neg hshows
      refine .inl ⟨?_, by rw [hevent]⟩
      cases ev with
      | approval session id run summary command => exact if_neg hshows
      | _ => rfl

theorem inv_terminal {t : Terminal} (h : Inv σ log d)
    (hpending : t.screen.pendingApproval = d.terminal.screen.pendingApproval) : Inv σ log { d with terminal := t } :=
  { h with pending := hpending.trans h.pending }

theorem inv_read {f : Proto.Frame} {wire : List Proto.Frame} {t : Terminal} (h : Inv σ log d) (hwire : d.wire = f :: wire)
    (ht : t.screen = d.terminal.screen.onFrame formatUsage f) :
    Inv σ (log ++ shownOf d.terminal.screen f) { d with wire, terminal := t } := by
  have hrest : ∀ ev, .event ev ∈ wire → Genuine d.sys ev := by
    intro ev hev
    exact h.wire ev (hwire ▸ List.mem_cons_of_mem _ hev)
  obtain ⟨hnone, hpending⟩ | ⟨session, id, run, summary, command, rfl, hshown, hpending⟩ :=
    reads_cases formatUsage d.terminal.screen f
  · rw [hnone, List.append_nil]
    refine { h with wire := hrest, pending := (by rw [ht, hpending, h.pending]), once := ?_ }
    have hsub : (flying { d with wire, terminal := t }).Sublist d.flying := by
      simp only [flying, hwire]
      exact ((List.sublist_cons_self f wire).filterMap _).append_left _
    exact h.once.sublist (hsub.append_right _)
  · have hasks : asks (log ++ [.shown id run command]) = asks log ++ [.asked id] := asks_append _ _
    rw [hshown]
    refine { h with wire := hrest, shown := ?_, once := ?_, pending := ?_, inOrder := ?_, requests := ?_, replies := ?_ }
    · intro id' run' command' hmem
      obtain hmem | hmem := List.mem_append.1 hmem
      · exact h.shown id' run' command' hmem
      · obtain ⟨rfl, rfl, rfl⟩ := Sight.shown.inj (List.mem_singleton.1 hmem)
        exact h.wire (.approval session _ _ summary _) (by rw [hwire]; exact List.mem_cons_self)
    · have hperm : (flying { d with wire, terminal := t } ++ askedIds (log ++ [.shown id run command])).Perm
          (d.flying ++ askedIds log) := by
        have hids : askedIds (log ++ [.shown id run command]) = askedIds log ++ [id] := by
          rw [askedIds, hasks, List.filterMap_append]
          rfl
        have hflying : d.flying = d.sending.filterMap approvalId? ++ (id :: wire.filterMap frameId?) := by
          rw [flying, hwire]
          rfl
        rw [hids, hflying, flying, List.append_assoc, List.append_assoc]
        refine List.Perm.append_left _ ?_
        rw [← List.append_assoc]
        exact List.perm_append_singleton id _
      exact hperm.nodup_iff.2 h.once
    · rw [ht, hpending, hasks, Ask.pending_snoc]
      rfl
    · rw [hasks]
      exact h.inOrder.snoc (by simp)
    · exact fun req hreq id' allow hmethod => List.mem_append_left _ (h.requests req hreq id' allow hmethod)
    · exact fun id' allow hmem => (h.replies id' allow hmem).imp (List.mem_append_left _) (List.mem_append_left _)

/-- A key is pressed; what it says of an approval is in order. -/
theorem inv_user {t : Terminal} {req : Option (Req Method)} (h : Inv σ log d) (hdoes : KeyDoes d.terminal.screen t.screen req) :
    Inv σ (log ++ req.toList.flatMap saidOf) { d with terminal := t, requests := d.requests ++ req.toList } := by
  have hquiet {req : Req Method} (hreq : ∀ id allow, req.method ≠ .approvalReply id allow)
      (hpending : t.screen.pendingApproval = d.terminal.screen.pendingApproval) :
      Inv σ (log ++ (some req).toList.flatMap saidOf)
        { d with terminal := t, requests := d.requests ++ (some req).toList } := by
    have hsaid : (some req).toList.flatMap saidOf = [] := by
      simp only [Option.toList_some, List.flatMap_cons, List.flatMap_nil, List.append_nil]
      unfold saidOf
      split
      · next id allow hmethod => exact absurd hmethod (hreq id allow)
      · rfl
    rw [hsaid, List.append_nil]
    refine { inv_terminal h hpending with requests := fun req' hreq' id allow hmethod => ?_ }
    obtain hreq' | hreq' := List.mem_append.1 hreq'
    · exact h.requests req' hreq' id allow hmethod
    · obtain rfl : req' = req := by simpa using hreq'
      exact absurd hmethod (hreq id allow)
  cases hdoes with
  | nothing hkeeps hmsgs happroval hinput =>
    simp only [Option.toList_none, List.flatMap_nil, List.append_nil]
    exact inv_terminal h happroval
  | answers id text req hnone hid hkeeps hreq m hm hmsgs happroval hinput =>
    exact hquiet (by simp [hreq]) (happroval.trans hnone.symm)
  | speaks text req hnone hnone' hkeeps hreq hmsgs happroval hinput =>
    refine hquiet ?_ (happroval.trans hnone.symm)
    obtain hreq | hreq := hreq <;> simp [hreq]
  | approves id allow req hid hkeeps hreq m hm hmsgs happroval hinput =>
    have hsaid : (some req).toList.flatMap saidOf = [.said id allow] := by simp [saidOf, hreq]
    have hasks : asks (log ++ [.said id allow]) = asks log ++ [.answered id] := asks_append _ _
    rw [hsaid]
    refine { h with shown := ?_, once := ?_, pending := ?_, inOrder := ?_, requests := ?_, replies := ?_ }
    · intro id' run command hmem
      exact h.shown id' run command (by simpa using hmem)
    · have hids : askedIds (log ++ [.said id allow]) = askedIds log := by
        rw [askedIds, hasks, List.filterMap_append]
        exact List.append_nil _
      rw [hids]
      exact h.once
    · rw [hasks, Ask.pending_snoc, happroval]
      rfl
    · rw [hasks]
      refine h.inOrder.snoc fun id' heq => ?_
      obtain rfl := Ask.answered.inj heq
      exact h.pending.symm.trans hid
    · intro req' hreq' id' allow' hmethod
      obtain hreq' | hreq' := List.mem_append.1 hreq'
      · exact List.mem_append_left _ (h.requests req' hreq' id' allow' hmethod)
      · obtain rfl : req' = req := by simpa using hreq'
        obtain ⟨rfl, rfl⟩ := Method.approvalReply.inj (hreq.symm.trans hmethod)
        simp
    · exact fun id' allow' hmem => (h.replies id' allow' hmem).imp (List.mem_append_left _) (List.mem_append_left _)

/-! ## Every step -/

theorem inv_serve {req : Req Method} {requests : List (Req Method)} (h : Inv σ log d)
    (hrequests : d.requests = req :: requests) : Inv σ log { d with requests, sys := served d.sys req } := by
  have hrest : Inv σ log { d with requests } :=
    { h with requests := fun req' hreq' => h.requests req' (hrequests ▸ List.mem_cons_of_mem _ hreq') }
  unfold served
  split
  · next id allow hmethod =>
    have hsaid := h.requests req (hrequests ▸ List.mem_cons_self) id allow hmethod
    exact inv_reply hrest (.inl hsaid)
  · exact hrest

theorem inv_elsewhere {id : String} {allow : Bool} (h : Inv σ log d) :
    Inv σ (log ++ [.elsewhere id allow]) { d with sys := d.sys.reply id allow } := by
  have hasks : asks (log ++ [.elsewhere id allow]) = asks log := by
    rw [asks_append]
    exact List.append_nil _
  have hlog : Inv σ (log ++ [.elsewhere id allow]) d :=
    { h with
      shown := fun id' run command hmem => h.shown id' run command (by simpa using hmem)
      once := by
        rw [askedIds, hasks]
        exact h.once
      pending := hasks ▸ h.pending
      inOrder := hasks ▸ h.inOrder
      requests := fun req hreq id' allow' hmethod => List.mem_append_left _ (h.requests req hreq id' allow' hmethod)
      replies := fun id' allow' hmem => (h.replies id' allow' hmem).imp (List.mem_append_left _) (List.mem_append_left _) }
  exact inv_reply hlog (.inr (by simp))

theorem terminalStep_screen {t t' : Terminal} {a : Terminal.Act} (h : Terminal.step formatUsage t a = some t') :
    match a with
    | .key code mods => t'.screen = (t.screen.onKey t.now code mods).1
    | .frame f => t'.screen = t.screen.onFrame formatUsage f
    | _ => t'.screen.pendingApproval = t.screen.pendingApproval := by
  unfold Terminal.step at h
  split at h
  · cases h
  · cases a with
    | hint =>
      simp only [Option.ite_none_right_eq_some, Option.some.injEq] at h
      obtain ⟨-, rfl⟩ := h
      rfl
    | key code mods | frame f | closed | draw maxOff | wait ms =>
      obtain rfl := Option.some.inj h
      rfl

theorem inv_step {a : Act} (h : Inv σ log d) (hstep : step σ formatUsage d a = some d') :
    Inv σ (log ++ sights d a d') d' := by
  cases a with
  | tools a =>
    simp only [step, Option.ite_none_left_eq_some, Option.map_eq_some_iff] at hstep
    obtain ⟨hreply, sys, hsys, rfl⟩ := hstep
    simpa [sights] using inv_tools h (by simpa using hreply) hsys
  | sent i =>
    obtain ⟨ev, hev, rfl⟩ := Option.map_eq_some_iff.1 hstep
    simpa [sights] using inv_sent h hev
  | unsent i =>
    obtain rfl := Option.some.inj hstep
    simpa [sights] using inv_unsent h i
  | other f =>
    simp only [step, Option.ite_none_left_eq_some, Option.some.injEq] at hstep
    obtain ⟨hf, rfl⟩ := hstep
    simpa [sights] using inv_other h (by simpa using hf)
  | read =>
    simp only [step] at hstep
    split at hstep
    · cases hstep
    · next f wire hwire =>
      obtain ⟨t, ht, rfl⟩ := Option.map_eq_some_iff.1 hstep
      simpa [sights, hwire] using inv_read h hwire (terminalStep_screen ht)
  | user code mods =>
    obtain ⟨t, ht, rfl⟩ := Option.map_eq_some_iff.1 hstep
    have hscreen : t.screen = (d.terminal.screen.onKey d.terminal.now code mods).1 := terminalStep_screen ht
    have hdoes := Screen.onKey_does d.terminal.screen d.terminal.now code mods
    rw [← hscreen] at hdoes
    exact inv_user h hdoes
  | idle a =>
    simp only [step, Option.ite_none_left_eq_some, Option.map_eq_some_iff] at hstep
    obtain ⟨hdriven, t, ht, rfl⟩ := hstep
    have hpending := terminalStep_screen ht
    cases a with
    | key code mods | frame f => exact absurd rfl hdriven
    | closed | hint | draw maxOff | wait ms => simpa [sights] using inv_terminal h hpending
  | serve =>
    simp only [step] at hstep
    split at hstep
    · cases hstep
    · next req requests hrequests =>
      obtain rfl := Option.some.inj hstep
      simpa [sights] using inv_serve h hrequests
  | elsewhere id allow =>
    obtain rfl := Option.some.inj hstep
    exact inv_elsewhere h

theorem inv_start (pid now : Nat) (first : Option Proto.Frame) : Inv σ [] (start (.start pid now first)) where
  gate := Approval.inv_empty σ.cfg
  granted := Approval.granted_empty σ.cfg
  numbered := Approval.numbered_empty σ.cfg
  sending := by simp [start]
  wire := by simp [start]
  shown := by simp
  once := by simp [start, flying, askedIds, asks]
  pending := (Terminal.waits_connect pid first).approval
  inOrder := by
    intro before id after heq
    simp [asks] at heq
  requests := by simp [start]
  replies := by simp [start, Sys.empty]

/-- What is on the screen and what is said, in the order of time. -/
def history (σ : Setting) (formatUsage : UInt32 → UInt32 → String) (d : Desk) (acts : List Act) : List Sight :=
  Steps.collect (step σ formatUsage) sights d acts

theorem inv_history {pid now : Nat} {first : Option Proto.Frame} {acts : List Act}
    (h : Steps.exec (step σ formatUsage) (start (.start pid now first)) acts = some d) :
    Inv σ (history σ formatUsage (start (.start pid now first)) acts) d := by
  have hinvariant : ∀ (log : List Sight) (d : Desk) (a : Act) (d' : Desk), Inv σ log d →
      step σ formatUsage d a = some d' → Inv σ (log ++ sights d a d') d' := fun log d a d' hd => inv_step hd
  exact Steps.collect_invariant hinvariant (inv_start pid now first) h

/-! ## What a yes is to, and a no -/

/-- The request is the last one on the screen when the user answers. -/
def Answers (log : List Sight) (id run command : String) (allow : Bool) : Prop :=
  ∃ early late after, log = early ++ .shown id run command :: (late ++ .said id allow :: after) ∧ asks late = []

theorem Inv.answers {id : String} {allow : Bool} (h : Inv σ log d) (hsaid : .said id allow ∈ log) :
    ∃ run command, Answers log id run command allow ∧ Issued d.sys id run command := by
  obtain ⟨before, after, rfl⟩ := List.append_of_mem hsaid
  have hpending : Ask.pending (asks before) = some id := by
    refine h.inOrder (asks before) id (asks after) ?_
    rw [asks_append]
    rfl
  obtain ⟨ask, hlast, hask⟩ := Option.bind_eq_some_iff.1 hpending
  obtain ⟨earlier, hasks⟩ := List.getLast?_eq_some_iff.1 hlast
  obtain ⟨l₁, l₂, rfl, -, hl₂⟩ := List.filterMap_eq_append_iff.1 hasks
  obtain ⟨skipped, x, late, rfl, -, hx, hlate⟩ := List.filterMap_eq_cons_iff.1 hl₂
  cases x with
  | shown id' run command =>
    obtain rfl := Option.some.inj hx
    obtain rfl : id' = id := Option.some.inj hask
    refine ⟨run, command, ⟨l₁ ++ skipped, late, after, by simp, hlate⟩, h.shown _ run command (by simp)⟩
  | said id' allow' =>
    obtain rfl := Option.some.inj hx
    cases hask
  | elsewhere id' allow' => cases hx

/-- The user answers once. -/
theorem Inv.answered_once {id : String} {allow allow' : Bool} (h : Inv σ log d) (hsaid : .said id allow ∈ log)
    (hsaid' : .said id allow' ∈ log) : allow = allow' := by
  have hasked : (askedIds log).Nodup := (List.nodup_append.1 h.once).2.1
  have hanswered : (log.filterMap fun x => x.ask.bind Ask.answered?).Nodup := by
    rw [← List.filterMap_filterMap]
    exact hasked.sublist ((List.sublist_append_left _ _).trans (Ask.answered_sublist h.inOrder))
  obtain ⟨i, hi⟩ := List.getElem?_of_mem hsaid
  obtain ⟨j, hj⟩ := List.getElem?_of_mem hsaid'
  obtain rfl := World.eq_of_filterMap_nodup hanswered hi hj rfl rfl
  exact (Sight.said.inj (Option.some.inj (hi.symm.trans hj))).2

theorem Inv.issued_eq {id : String} {k : Nat} {c : Call} {run command : String} (h : Inv σ log d)
    (hissued : (id, k) ∈ d.sys.issued) (hc : d.sys.calls[k]? = some c) (hof : Issued d.sys id run command) :
    run = c.run ∧ command = c.command := by
  obtain ⟨j, e, hissued', he, rfl, rfl⟩ := hof
  obtain ⟨-, rfl⟩ := Prod.mk.inj (List.inj_on_of_nodup_map h.numbered.ids hissued hissued' rfl)
  obtain rfl := Option.some.inj (hc.symm.trans he)
  exact ⟨rfl, rfl⟩

/-- Whatever calls, runs, keys, frames, timeouts and aborts come in between: a command of `exec` that needs the
user's word runs only after this command, of this run, was the last request on the screen and the user said yes to
it, unless another client said yes to its id; the id is for one call, which runs its command once at most; and
after a no of the user's alone it never runs. -/
theorem approved_shown {pid now : Nat} {first : Option Proto.Frame} {acts : List Act}
    (h : Steps.exec (step σ formatUsage) (start (.start pid now first)) acts = some d)
    (hlog : log = history σ formatUsage (start (.start pid now first)) acts) :
    (∀ (k : Nat) (command : String), (k, command) ∈ d.sys.spawned → ∃ c, d.sys.calls[k]? = some c ∧
      c.command = command ∧ (c.tool = .exec → σ.cfg.decision command = .askUser → ∃ id, (id, k) ∈ d.sys.issued ∧
        (Answers log id c.run command true ∨ .elsewhere id true ∈ log))) ∧
      (d.sys.spawned.map (·.1)).Nodup ∧ (d.sys.issued.map (·.1)).Nodup ∧ (d.sys.issued.map (·.2)).Nodup ∧
      ∀ (id : String) (k : Nat) (command : String), (id, k) ∈ d.sys.issued → .said id false ∈ log →
        .elsewhere id true ∉ log → (k, command) ∉ d.sys.spawned := by
  have hinv := inv_history h
  rw [← hlog] at hinv
  have hyes (id : String) (hreply : (id, true) ∈ d.sys.replies) : .said id true ∈ log ∨ .elsewhere id true ∈ log :=
    hinv.replies id true hreply
  refine ⟨?_, hinv.granted.once, hinv.numbered.ids, hinv.numbered.calls, ?_⟩
  · intro k command hspawned
    obtain ⟨c, hc, rfl, -, happroved⟩ := hinv.granted.approved k command hspawned
    refine ⟨c, hc, rfl, fun hexec hask => ?_⟩
    obtain ⟨id, hissued, hreply⟩ := happroved hexec hask
    refine ⟨id, hissued, (hyes id hreply).imp_left fun hsaid => ?_⟩
    obtain ⟨run, command, hanswers, hof⟩ := hinv.answers hsaid
    obtain ⟨rfl, rfl⟩ := hinv.issued_eq hissued hc hof
    exact hanswers
  · intro id k command hissued hno helsewhere hspawned
    obtain ⟨c, hc, rfl, -, happroved⟩ := hinv.granted.approved k command hspawned
    obtain ⟨d', hd', -, hexec, hask⟩ := hinv.numbered.past (id, k) hissued
    obtain rfl : c = d' := Option.some.inj (hc.symm.trans hd')
    obtain ⟨id', hissued', hreply⟩ := happroved hexec hask
    obtain ⟨rfl, -⟩ := Prod.mk.inj (List.inj_on_of_nodup_map hinv.numbered.calls hissued hissued' rfl)
    obtain hsaid | hsaid := hyes id hreply
    · exact absurd (hinv.answered_once hno hsaid) (by decide)
    · exact helsewhere hsaid

def testSetting : Setting where
  cfg := { mode := .prompt, approvalTimeout := 300, gate := true, toLowercase := List.map Char.toLower }
  mine run := run = "r1"
  sessionOf _ := "main"

/-- Two calls of the user's run ask one after the other, a call of another run in between; the user says no to the
second, which came up last, and then yes to what it was asked again. -/
def testActs : List Act :=
  [.tools (.invoke "r1" .exec (some "rm -rf x")), .tools (.invoke "r2" .exec (some "rm -rf y")),
    .tools (.invoke "r1" .exec (some "mkfs z")), .tools (.move 0 (.issue "a")), .tools (.move 1 (.issue "b")),
    .tools (.move 2 (.issue "c")), .sent 1, .read, .user (.char 'n') {}, .sent 0, .read, .serve, .elsewhere "b" true,
    .user (.char 'y') {}, .serve, .tools (.move 0 .pumpReads), .tools (.move 2 .pumpReads), .tools (.move 0 .askReturns),
    .tools (.move 2 .askReturns), .tools (.move 0 .spawn)]

def testDesk : Desk := start (.start 7 0 (some (.res { id := "connect-0", result := .ok .empty })))

theorem testActs_history : history testSetting (fun _ _ => "") testDesk testActs =
    [.shown "c" "r1" "mkfs z", .said "c" false, .shown "a" "r1" "rm -rf x", .elsewhere "b" true, .said "a" true] := by
  decide +kernel

theorem testActs_run : (Steps.exec (step testSetting fun _ _ => "") testDesk testActs).map
    (fun d => (d.sys.spawned, d.sys.issued)) = some ([(0, "rm -rf x")], [("a", 0), ("b", 1), ("c", 2)]) := by
  decide +kernel

theorem approved_shown_sample : ∃ d, Steps.exec (step testSetting fun _ _ => "") testDesk testActs = some d ∧
    d.sys.spawned = [(0, "rm -rf x")] ∧ (2, "mkfs z") ∉ d.sys.spawned := by
  obtain ⟨d, hd, hsys⟩ := Option.map_eq_some_iff.1 testActs_run
  obtain ⟨hspawned, hissued⟩ := Prod.mk.inj hsys
  obtain ⟨-, -, -, -, hno⟩ := approved_shown hd testActs_history.symm
  exact ⟨d, hd, hspawned, hno "c" 2 "mkfs z" (by simp [hissued]) (by simp) (by simp)⟩

end Desk

end Tui

end OhMyClaw
