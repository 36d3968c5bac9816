import OhMyClaw.Llm.OpenAi
import OhMyClaw.Server.RunLegs

/-!
# The tool call a turn hands over

A turn gathers the fragments of a tool call until the stream ends it.  `step_turn` says what one
leg does to what has been gathered, `exec_turn` what a turn does: the call is the fold of the
fragments among the items.  Of the fragments of a chunk `parseChunk` looks at the first only, so
the call is whole exactly when no fragment of index 0 stands behind another one.
-/

namespace OhMyClaw.Run

open OpenAi

/-! ## What a turn gathers -/

/-- The item of the stream an action takes. -/
def Act.item? : Act → Option Delta
  | .delta d _ => some d
  | _ => none

def items (as : List Act) : List Delta := as.filterMap Act.item?

/-- The call after some more items. -/
def PartialCall.gather (tc : PartialCall) (ds : List Delta) : PartialCall :=
  (ds.filterMap toolCallOf).foldl PartialCall.add tc

/-- The driver is in the turn and holds `tc`. -/
def Pc.Holds (tc : PartialCall) (pc : Pc) : Prop :=
  pc = .streaming tc ∨ ∃ ev, pc = .sending ev (.turn tc)

def AfterSend.Closes : AfterSend → Prop
  | .completed => True
  | .returns _ => True
  | .watchdog => True
  | _ => False

/-- The run is over but for what is still to be sent and stored. -/
def Pc.Closing : Pc → Prop
  | .sending _ k => k.Closes
  | .persisting _ k => k = .finish
  | .done _ => True
  | _ => False

variable {ctx : RunCtx} {s t : Drive} {tc : PartialCall}

theorem emitInline_closing {k : AfterSend} (hk : k.Closes) (ev : Event) (s : Drive) :
    (emitInline ctx ev k s).pc.Closing := by
  rw [emitInline_pc]
  exact hk

theorem persist_closing (e : NewEntry) (s : Drive) : (persist ctx e .finish s).pc.Closing := by
  unfold persist
  split
  · exact trivial
  · exact rfl

theorem afterSend_closing {k : AfterSend} (hk : k.Closes) (ok : Bool) (s : Drive) :
    (afterSend ctx k ok s).pc.Closing := by
  cases k with
  | completed => exact persist_closing _ s
  | returns o => exact trivial
  | watchdog => exact emitInline_closing (k := .returns _) trivial _ s
  | started => exact hk.elim
  | turn tc => exact hk.elim
  | exec call => exact hk.elim
  | executed call output => exact hk.elim

theorem advance_closing {k : AfterSend} (hk : k.Closes) (ev : StepEvent) (s : Drive) :
    (advance ctx ev k s).pc.Closing := by
  simp only [advance, executeEffects]
  split
  · exact emitInline_closing hk _ _
  · exact afterSend_closing hk true _

theorem stopWith_closing (ev : StepEvent) (s : Drive) : (stopWith ctx ev s).pc.Closing :=
  advance_closing (k := .returns _) trivial ev s

theorem advance_holds (ev : StepEvent) (s : Drive) : (advance ctx ev (.turn tc) s).pc.Holds tc := by
  simp only [advance, executeEffects]
  split
  · exact Or.inr ⟨_, emitInline_pc ctx _ _ _⟩
  · exact Or.inl rfl

/-- An item that does not end the turn joins what is held. -/
theorem onDelta_holds {d : Delta} (hd : isDone d = false) (genCallId : String) (hpc : s.pc = .streaming tc) :
    (onDelta ctx tc d genCallId s).pc.Holds (tc.gather [d]) := by
  cases d with
  | text t => exact advance_holds _ s
  | reasoning r => exact Or.inr ⟨_, emitInline_pc ctx _ _ _⟩
  | toolCall d => exact Or.inl rfl
  | usage u =>
    simp only [onDelta]
    split
    · exact Or.inl hpc
    · exact Or.inl hpc
  | done r => simp [isDone] at hd

theorem step_turn {a : Act} (h : step ctx s a = some t) (hs : s.pc.Holds tc ∨ s.pc.Closing)
    (hdone : ∀ d, a.item? = some d → isDone d = false) :
    t.pc.Holds (tc.gather a.item?.toList) ∨ t.pc.Closing := by
  have hstreaming {tc'} (hpc : s.pc = .streaming tc') : tc' = tc := by
    rw [hpc] at hs
    rcases hs with (h | ⟨ev, h⟩) | h
    · cases h
      rfl
    · cases h
    · exact h.elim
  cases leg_of_step h with
  | @sent ev k ok hpc hok =>
    rw [hpc] at hs
    rcases hs with (h | ⟨ev', h⟩) | hk
    · cases h
    · cases h
      exact Or.inl (Or.inl rfl)
    · exact Or.inr (afterSend_closing hk ok _)
  | opened hpc =>
    rw [hpc] at hs
    rcases hs with (h | ⟨ev, h⟩) | h
    · cases h
    · cases h
    · exact h.elim
  | openFailed hpc => exact Or.inr (stopWith_closing _ _)
  | closed hpc hsink => exact Or.inr (stopWith_closing _ _)
  | @delta tc' d genCallId hpc =>
    obtain rfl := hstreaming hpc
    exact Or.inl (onDelta_holds (hdone d rfl) genCallId hpc)
  | streamErr hpc => exact Or.inr (stopWith_closing _ _)
  | streamEnd hpc => exact Or.inr (advance_closing (k := .completed) trivial _ _)
  | cancelled hpc hcancel => exact Or.inr (stopWith_closing _ _)
  | idle hpc => exact Or.inr (advance_closing (k := .watchdog) trivial _ _)
  | @stored e k ok hpc =>
    rw [hpc] at hs
    rcases hs with (h | ⟨ev, h⟩) | hk
    · cases h
    · cases h
    · obtain rfl : k = .finish := hk
      exact Or.inr trivial
  | toolDone hpc =>
    rw [hpc] at hs
    rcases hs with (h | ⟨ev, h⟩) | h
    · cases h
    · cases h
    · exact h.elim
  | side hpumps hok => exact hs
  | abort => exact hs
  | runTimeout ht hfirst hpc => exact Or.inr (emitInline_closing (k := .returns _) trivial _ _)
  | panic hpc => exact Or.inr trivial

theorem gather_append (tc : PartialCall) (ds es : List Delta) :
    tc.gather (ds ++ es) = (tc.gather ds).gather es := by
  simp only [PartialCall.gather, List.filterMap_append, List.foldl_append]

theorem items_cons (a : Act) (as : List Act) : items (a :: as) = a.item?.toList ++ items as := by
  unfold items
  cases h : a.item? with
  | none => simp [h]
  | some d => simp [h]

theorem exec_turn {as : List Act} (h : Steps.exec (step ctx) s as = some t)
    (hs : s.pc.Holds tc ∨ s.pc.Closing) (hdone : ∀ d ∈ items as, isDone d = false) :
    t.pc.Holds (tc.gather (items as)) ∨ t.pc.Closing := by
  induction as generalizing s tc with
  | nil =>
    obtain rfl : s = t := by simpa using h
    exact hs
  | cons a as ih =>
    obtain ⟨u, hu, hrest⟩ := Steps.exec_cons_eq_some.1 h
    rw [items_cons] at hdone ⊢
    rw [gather_append]
    refine ih hrest (step_turn hu hs fun d hd => ?_) fun d hd => ?_
    · exact hdone d (List.mem_append_left _ (by simp [hd]))
    · exact hdone d (List.mem_append_right _ hd)

/-- The call a turn that ends in a tool call hands over. -/
def PartialCall.handOver (tc : PartialCall) (genCallId : String) : ToolCallSpec :=
  { id := if tc.id = "" then genCallId else tc.id
    name := if tc.name = "" then unknownToolName else tc.name
    args := tc.args }

theorem toolCallTurn_pc (tc : PartialCall) (genCallId : String) (s : Drive) :
    ∃ e, (toolCallTurn ctx tc genCallId s).pc = .persisting e (.loopCheck (tc.handOver genCallId)) := by
  have hstored {e : NewEntry} {k : AfterPersist} {s : Drive} (he : e.toolCalls ≠ none) :
      (persist ctx e k s).pc = .persisting e k := by
    unfold persist
    rw [if_neg fun h => he h.2]
  exact ⟨_, hstored (by simp [newEntry])⟩

/-- A whole turn: the call is what the items before the last one gave. -/
theorem exec_toolUse {as : List Act} {genCallId : String} (hpc : s.pc = .streaming tc)
    (h : Steps.exec (step ctx) s (as ++ [.delta (.done .toolUse) genCallId]) = some t)
    (hdone : ∀ d ∈ items as, isDone d = false) :
    ∃ e, t.pc = .persisting e (.loopCheck ((tc.gather (items as)).handOver genCallId)) := by
  obtain ⟨u, hu, hlast⟩ := Steps.exec_append_eq_some.1 h
  have hturn := exec_turn hu (Or.inl (Or.inl hpc)) hdone
  obtain ⟨v, hv, hend⟩ := Steps.exec_cons_eq_some.1 hlast
  obtain rfl : v = t := by simpa using hend
  cases leg_of_step hv with
  | @delta tc' d _ hu =>
    rw [hu] at hturn
    rcases hturn with (h | ⟨ev, h⟩) | h
    · cases h
      exact toolCallTurn_pc _ genCallId u
    · cases h
    · exact h.elim

/-! ## Fragments of a stream -/

/-- The fragments a chunk carries, in the order of their positions. -/
def fragments (v : Json) : List Json :=
  match (delta v).bind (get "tool_calls") with
  | some (.arr items) => items
  | _ => []

/-- The fragments of the first call. -/
def callFragments (v : Json) : List ToolCallDelta :=
  ((fragments v).filter fun tc => index tc = 0).map fragment

/-- Of several values that may be empty all others are the same. -/
def Agree (xs : List String) : Prop := ∀ x ∈ xs, ∀ y ∈ xs, x ≠ "" → y ≠ "" → x = y

/-- The value they agree on, if there is one. -/
def agreed (xs : List String) : String := (xs.find? fun x => x ≠ "").getD ""

/-- A stream of chunks that ends in a tool call and does not contradict itself about it. -/
structure ToolStream (cs : List Json) : Prop where
  ids : Agree ((cs.flatMap callFragments).map (·.callId))
  names : Agree ((cs.flatMap callFragments).map (·.name.getD ""))
  ends : ∃ init last, cs = init ++ [last] ∧ (∀ c ∈ init, finishReason c = none) ∧
    finishReason last = some .toolUse

/-- The call as all its fragments have it. -/
def assembled (fs : List ToolCallDelta) : PartialCall :=
  { id := agreed (fs.map (·.callId))
    name := agreed (fs.map (·.name.getD ""))
    args := String.join (fs.map (·.argsChunk)) }

/-- No fragment of the call gets lost and none of another call gets in, and every turn that takes
the stream hands the call over. -/
structure HandedOver (cs : List Json) : Prop where
  kept : (cs.flatMap parseChunk).filterMap toolCallOf = cs.flatMap callFragments
  run : ∀ ctx s t as genCallId, s.pc = .streaming .empty →
    Steps.exec (step ctx) s (as ++ [.delta (.done .toolUse) genCallId]) = some t →
    items (as ++ [.delta (.done .toolUse) genCallId]) = cs.flatMap parseChunk →
    ∃ e, t.pc = .persisting e (.loopCheck ((assembled (cs.flatMap callFragments)).handOver genCallId))

/-- In no chunk a fragment of the first call stands behind another fragment. -/
def InFront (cs : List Json) : Prop := ∀ c ∈ cs, ∀ tc ∈ (fragments c).tail, index tc ≠ 0

theorem firstFragment_eq (v : Json) :
    ((delta v).bind firstFragment).toList =
      (((fragments v).take 1).filter fun tc => index tc = 0).map fragment := by
  have hfirst : (delta v).bind firstFragment =
      (fragments v).head?.bind fun tc => if index tc = 0 then some (fragment tc) else none := by
    unfold firstFragment fragments
    cases delta v with
    | none => rfl
    | some d =>
      simp only [Option.bind_some]
      cases get "tool_calls" d with
      | none => rfl
      | some j => cases j <;> rfl
  rw [hfirst]
  cases fragments v with
  | nil => rfl
  | cons tc rest => by_cases h : index tc = 0 <;> simp [h]

/-- The fragment a chunk is asked for is all of them when the others belong to other calls. -/
theorem firstFragment_eq_iff (v : Json) :
    ((delta v).bind firstFragment).toList = callFragments v ↔ ∀ tc ∈ (fragments v).tail, index tc ≠ 0 := by
  rw [firstFragment_eq]
  unfold callFragments
  cases fragments v with
  | nil => simp
  | cons tc rest =>
    have hfilter : (rest.filter fun tc => index tc = 0).map fragment = [] ↔ ∀ tc ∈ rest, index tc ≠ 0 := by
      simp
    rw [List.tail_cons, ← hfilter]
    by_cases h : index tc = 0
    · simp [h]
    · have hhead : ((tc :: rest).take 1).filter (fun tc => index tc = 0) = [] := by simp [h]
      have hall : (tc :: rest).filter (fun tc => index tc = 0) = rest.filter fun tc => index tc = 0 := by
        simp [h]
      rw [hhead, hall, List.map_nil]
      exact eq_comm

theorem kept_iff (cs : List Json) :
    (cs.flatMap parseChunk).filterMap toolCallOf = cs.flatMap callFragments ↔ InFront cs := by
  have hchunks : (cs.flatMap parseChunk).filterMap toolCallOf =
      cs.flatMap fun c => ((delta c).bind firstFragment).toList := by
    rw [List.filterMap_flatMap]
    congr 1
    funext c
    exact toolCallOf_parseChunk c
  rw [hchunks]
  constructor
  · intro h c hc
    refine (firstFragment_eq_iff c).1 (eq_of_flatMap_eq (fun v _ => ?_) h c hc)
    rw [firstFragment_eq]
    unfold callFragments
    rw [List.length_map, List.length_map]
    exact ((List.take_sublist _ _).filter _).length_le
  · intro h
    exact List.flatMap_congr fun c hc => (firstFragment_eq_iff c).2 (h c hc)

/-! ## The call as the fold of its fragments -/

theorem agree_tail {x : String} {xs : List String} (h : Agree (x :: xs)) : Agree xs :=
  fun a ha b hb => h a (List.mem_cons_of_mem _ ha) b (List.mem_cons_of_mem _ hb)

/-- Taking over what is not empty comes down to the agreed value. -/
theorem foldl_agree {xs : List String} {x : String} (h : Agree (x :: xs)) :
    xs.foldl (fun acc y => if y = "" then acc else y) x = agreed (x :: xs) := by
  induction xs generalizing x with
  | nil => by_cases hx : x = "" <;> simp [agreed, hx]
  | cons y ys ih =>
    rw [List.foldl_cons]
    by_cases hy : y = ""
    · subst hy
      rw [if_pos rfl, ih fun a ha b hb => ?_]
      · unfold agreed
        by_cases hx : x = ""
        · simp [hx]
        · simp [hx]
      · have hmem {a : String} (ha : a ∈ x :: ys) : a ∈ x :: "" :: ys := by
          rcases List.mem_cons.1 ha with rfl | ha
          · exact List.mem_cons_self
          · exact List.mem_cons_of_mem _ (List.mem_cons_of_mem _ ha)
        exact h a (hmem ha) b (hmem hb)
    · rw [if_neg hy, ih (agree_tail h)]
      by_cases hx : x = ""
      · simp [agreed, hx, hy]
      · have hxy : x = y := h x List.mem_cons_self y (List.mem_cons_of_mem _ List.mem_cons_self) hx hy
        simp [agreed, hxy, hy]

theorem foldl_add (tc : PartialCall) (fs : List ToolCallDelta) :
    fs.foldl PartialCall.add tc =
      { id := (fs.map (·.callId)).foldl (fun acc y => if y = "" then acc else y) tc.id
        name := (fs.map (·.name.getD "")).foldl (fun acc y => if y = "" then acc else y) tc.name
        args := (fs.map (·.argsChunk)).foldl (· ++ ·) tc.args } := by
  induction fs generalizing tc with
  | nil => rfl
  | cons d fs ih =>
    have hname : (tc.add d).name = if d.name.getD "" = "" then tc.name else d.name.getD "" := by
      unfold PartialCall.add
      cases d.name with
      | none => rfl
      | some n => rfl
    rw [List.foldl_cons, ih (tc.add d), hname]
    rfl

theorem gathered_eq {fs : List ToolCallDelta} (hids : Agree (fs.map (·.callId)))
    (hnames : Agree (fs.map (·.name.getD ""))) : fs.foldl PartialCall.add .empty = assembled fs := by
  have hempty {xs : List String} (h : Agree xs) :
      xs.foldl (fun acc y => if y = "" then acc else y) "" = agreed xs := by
    rw [foldl_agree]
    · simp [agreed]
    · intro a ha b hb hane hbne
      rcases List.mem_cons.1 ha with rfl | ha
      · exact absurd rfl hane
      · rcases List.mem_cons.1 hb with rfl | hb
        · exact absurd rfl hbne
        · exact h a ha b hb hane hbne
  rw [foldl_add]
  show PartialCall.mk _ _ _ = PartialCall.mk _ _ _
  rw [show PartialCall.empty.id = "" from rfl, show PartialCall.empty.name = "" from rfl, hempty hids,
    hempty hnames]
  rfl

/-- The items before the end of such a stream do not end it. -/
theorem items_open {cs : List Json} (h : ToolStream cs) {as : List Act} {genCallId : String}
    (hitems : items (as ++ [.delta (.done .toolUse) genCallId]) = cs.flatMap parseChunk) :
    ∀ d ∈ items as, isDone d = false := by
  obtain ⟨init, last, rfl, hinit, hlast⟩ := h.ends
  have hbefore : items as = init.flatMap parseChunk ++ openItems last := by
    have heq : items as ++ [Delta.done .toolUse] =
        (init.flatMap parseChunk ++ openItems last) ++ [Delta.done .toolUse] := by
      have hsplit : items (as ++ [.delta (.done .toolUse) genCallId]) =
          items as ++ [Delta.done .toolUse] := by
        unfold items
        rw [List.filterMap_append]
        rfl
      rw [← hsplit, hitems, List.flatMap_append, List.flatMap_singleton, parseChunk_eq last, hlast,
        List.append_assoc]
      rfl
    exact List.append_cancel_right heq
  rw [hbefore]
  intro d hd
  rcases List.mem_append.1 hd with hd | hd
  · obtain ⟨c, hc, hd⟩ := List.mem_flatMap.1 hd
    rw [parseChunk_eq, hinit c hc, Option.map_none, Option.toList_none, List.append_nil] at hd
    exact isDone_openItems c d hd
  · exact isDone_openItems last d hd

/-- The call is whole exactly when no fragment of it stands behind another fragment. -/
theorem handedOver_iff {cs : List Json} (h : ToolStream cs) : HandedOver cs ↔ InFront cs := by
  constructor
  · intro hover
    exact (kept_iff cs).1 hover.kept
  · intro hfront
    have hkept := (kept_iff cs).2 hfront
    refine ⟨hkept, fun ctx s t as genCallId hpc hrun hitems => ?_⟩
    obtain ⟨e, he⟩ := exec_toolUse hpc hrun (items_open h hitems)
    have hgather : PartialCall.empty.gather (items as) = assembled (cs.flatMap callFragments) := by
      have hall : (items as).filterMap toolCallOf = cs.flatMap callFragments := by
        rw [← hkept, ← hitems]
        unfold items
        rw [List.filterMap_append, List.filterMap_append]
        simp [Act.item?, toolCallOf]
      rw [PartialCall.gather, hall]
      exact gathered_eq h.ids h.names
    exact ⟨e, by rw [he, hgather]⟩

/-- A fragment as a chunk carries it. -/
def fragmentJson (i : Json.Number) (id name args : String) : Json :=
  .obj [("index", .num i), ("id", .str id),
    ("function", .obj [("name", .str name), ("arguments", .str args)])]

def toolChunk (fs : List Json) (finish : Json) : Json :=
  .obj [("choices", .arr [.obj [("delta", .obj [("tool_calls", .arr fs)]), ("finish_reason", finish)]])]

def zero : Json.Number := ⟨['0'], by decide⟩

def one : Json.Number := ⟨['1'], by decide⟩

/-- A call in two chunks, the second of which has its fragment behind one of another call if
`others` holds any. -/
def splitCall (others : List Json) : List Json :=
  [toolChunk [fragmentJson zero "call_a" "exec" "[1,"] .null,
    toolChunk (others ++ [fragmentJson zero "" "" "2]"]) .null,
    toolChunk [] (.str "tool_calls")]

theorem toolStream_splitCall (others : List Json) (h : ∀ f ∈ others, index f ≠ 0) :
    ToolStream (splitCall others) := by
  have hfragments : (splitCall others).flatMap callFragments =
      [fragment (fragmentJson zero "call_a" "exec" "[1,"), fragment (fragmentJson zero "" "" "2]")] := by
    have hsecond : callFragments (toolChunk (others ++ [fragmentJson zero "" "" "2]"]) .null) =
        [fragment (fragmentJson zero "" "" "2]")] := by
      show ((others ++ [_]).filter fun tc => index tc = 0).map fragment = _
      rw [List.filter_append, List.filter_eq_nil_iff.2 fun f hf => by simpa using h f hf]
      rfl
    simp only [splitCall, List.flatMap_cons, hsecond]
    rfl
  refine ⟨?_, ?_, [_, _], toolChunk [] (.str "tool_calls"), rfl, ?_, rfl⟩
  · rw [hfragments]
    unfold Agree
    decide
  · rw [hfragments]
    unfold Agree
    decide
  · intro c hc
    simp only [List.mem_cons, List.not_mem_nil, or_false] at hc
    rcases hc with rfl | rfl
    · rfl
    · rfl

theorem handedOver_splitCall : HandedOver (splitCall []) := by
  refine (handedOver_iff (toolStream_splitCall [] (by simp))).2 ?_
  unfold InFront
  decide

/-- Behind a fragment of another call the second half of the arguments is lost. -/
theorem handedOver_drops :
    ∃ cs, ToolStream cs ∧ ¬ HandedOver cs ∧
      ((cs.flatMap parseChunk).filterMap toolCallOf).map (·.argsChunk) = ["[1,"] ∧
        (cs.flatMap callFragments).map (·.argsChunk) = ["[1,", "2]"] := by
  have hother : ∀ f ∈ [fragmentJson one "call_b" "exec" "[]"], index f ≠ 0 := by decide
  have hlost : (((splitCall [fragmentJson one "call_b" "exec" "[]"]).flatMap parseChunk).filterMap
      toolCallOf).map (·.argsChunk) = ["[1,"] := by
    decide
  have hall : ((splitCall [fragmentJson one "call_b" "exec" "[]"]).flatMap callFragments).map
      (·.argsChunk) = ["[1,", "2]"] := by
    decide
  refine ⟨_, toolStream_splitCall _ hother, fun h => ?_, hlost, hall⟩
  rw [h.kept, hall] at hlost
  exact absurd hlost (by decide)

end OhMyClaw.Run
