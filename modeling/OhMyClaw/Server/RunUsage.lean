import OhMyClaw.Server.RunCall

/-!
# The usage a turn records

A turn takes the items of its stream up to the first end (`turnItems`) and records the last input
count among them.  A provider that reports the usage behind the chunk with the finish reason, or
closes with `[DONE]`, has items behind that end: what they hold is lost.  `usageKept_iff` says for
which payloads nothing is.
-/

namespace OhMyClaw.Run

open OpenAi

/-! ## What a run records -/

/-- The input count after one more item. -/
def recordItem (old : Option Int) : Delta → Option Int
  | .usage u => if 0 < u.inputTokens then some u.inputTokens else old
  | _ => old

variable {ctx : RunCtx} {s t : Drive}

theorem emitInline_last (ev : Event) (k : AfterSend) (s : Drive) :
    (emitInline ctx ev k s).lastInputTokens = s.lastInputTokens := by
  unfold emitInline
  split <;> rfl

theorem loopCheck_last (call : ToolCallSpec) (s : Drive) :
    (loopCheck ctx call s).lastInputTokens = s.lastInputTokens := by
  simp only [loopCheck, emitError]
  split
  · exact emitInline_last _ _ _
  · split
    · exact emitInline_last _ _ _
    · exact emitInline_last _ _ _

theorem afterPersist_last (k : AfterPersist) (s : Drive) :
    (afterPersist ctx k s).lastInputTokens = s.lastInputTokens := by
  cases k with
  | finish => rfl
  | loopCheck call => exact loopCheck_last call s
  | feedBack call output => rfl

theorem persist_last (e : NewEntry) (k : AfterPersist) (s : Drive) :
    (persist ctx e k s).lastInputTokens = s.lastInputTokens := by
  unfold persist
  split
  · exact afterPersist_last k s
  · rfl

theorem afterSend_last (k : AfterSend) (ok : Bool) (s : Drive) :
    (afterSend ctx k ok s).lastInputTokens = s.lastInputTokens := by
  cases k with
  | started =>
    simp only [afterSend]
    split <;> rfl
  | turn tc => rfl
  | completed => exact persist_last _ _ s
  | returns o => rfl
  | watchdog => exact emitInline_last _ _ s
  | exec call =>
    simp only [afterSend]
    split
    · rfl
    · exact persist_last _ _ s
  | executed call output => exact persist_last _ _ s

theorem advance_last (ev : StepEvent) (k : AfterSend) (s : Drive) :
    (advance ctx ev k s).lastInputTokens = s.lastInputTokens := by
  simp only [advance, executeEffects]
  split
  · exact emitInline_last _ _ _
  · exact afterSend_last k true _

theorem truncatedTurn_last (tc : PartialCall) (s : Drive) :
    (truncatedTurn ctx tc s).lastInputTokens = s.lastInputTokens := by
  simp only [truncatedTurn, emitError]
  split
  · exact emitInline_last _ _ _
  · by_cases hacc : s.acc = ""
    · simp only [hacc, if_true, beginTurn]
    · simp only [hacc, if_false, beginTurn]

/-- Only an item of usage is recorded. -/
theorem onDelta_last (tc : PartialCall) (d : Delta) (genCallId : String) (s : Drive) :
    (onDelta ctx tc d genCallId s).lastInputTokens = recordItem s.lastInputTokens d := by
  cases d with
  | text t => exact advance_last _ _ s
  | reasoning r => exact emitInline_last _ _ _
  | toolCall d => rfl
  | usage u =>
    simp only [onDelta, recordItem]
    split <;> rfl
  | done r =>
    cases r with
    | toolUse => exact persist_last _ _ _
    | length => exact truncatedTurn_last tc s
    | stop => exact advance_last _ _ s

theorem step_last {a : Act} (h : step ctx s a = some t) :
    t.lastInputTokens = a.item?.toList.foldl recordItem s.lastInputTokens := by
  cases leg_of_step h with
  | sent hpc hok =>
    unfold onSent
    rw [afterSend_last]
    split <;> rfl
  | opened hpc => rfl
  | openFailed hpc => exact advance_last _ _ _
  | closed hpc hsink => exact advance_last _ _ _
  | @delta tc d genCallId hpc => exact onDelta_last tc d genCallId s
  | streamErr hpc => exact advance_last _ _ _
  | streamEnd hpc => exact advance_last _ _ _
  | cancelled hpc hcancel => exact advance_last _ _ _
  | idle hpc => exact advance_last _ _ _
  | @stored e k ok hpc =>
    rw [afterPersist_last]
    split <;> rfl
  | toolDone hpc => exact emitInline_last _ _ _
  | side hpumps hok => rfl
  | abort => rfl
  | runTimeout ht hfirst hpc => exact emitInline_last _ _ _
  | panic hpc => rfl

theorem exec_last {as : List Act} (h : Steps.exec (step ctx) s as = some t) :
    t.lastInputTokens = (items as).foldl recordItem s.lastInputTokens := by
  induction as generalizing s with
  | nil =>
    obtain rfl : s = t := by simpa using h
    rfl
  | cons a as ih =>
    obtain ⟨u, hu, hrest⟩ := Steps.exec_cons_eq_some.1 h
    rw [ih hrest, step_last hu, items_cons, List.foldl_append]

/-- An end of the stream ends the turn: the driver takes no further item of it. -/
theorem step_done {r : FinishReason} {genCallId : String}
    (h : step ctx s (.delta (.done r) genCallId) = some t) : ∀ tc, t.pc ≠ .streaming tc := by
  have hclosing {u : Drive} (hu : u.pc.Closing) : ∀ tc, u.pc ≠ .streaming tc := by
    intro tc hpc
    rw [hpc] at hu
    exact hu
  cases leg_of_step h with
  | @delta tc d _ hpc =>
    cases r with
    | toolUse =>
      show ∀ tc', (toolCallTurn ctx tc genCallId s).pc ≠ .streaming tc'
      have hcall : ∃ e, (toolCallTurn ctx tc genCallId s).pc =
          .persisting e (.loopCheck (tc.handOver genCallId)) := toolCallTurn_pc tc genCallId s
      obtain ⟨e, he⟩ := hcall
      intro tc' hpc
      rw [he] at hpc
      cases hpc
    | length =>
      show ∀ tc', (truncatedTurn ctx tc s).pc ≠ .streaming tc'
      simp only [truncatedTurn, emitError]
      split
      · simp
      · by_cases hacc : s.acc = ""
        · simp [hacc, beginTurn]
        · simp [hacc, beginTurn]
    | stop => exact hclosing (advance_closing (k := .completed) trivial _ s)

/-! ## The items a turn takes -/

/-- The items up to the first end, that one included. -/
def turnItems : List Delta → List Delta
  | [] => []
  | d :: ds => if isDone d then [d] else d :: turnItems ds

theorem turnItems_append {ds : List Delta} (h : ∀ d ∈ ds, isDone d = false) (es : List Delta) :
    turnItems (ds ++ es) = ds ++ turnItems es := by
  induction ds with
  | nil => rfl
  | cons d ds ih =>
    rw [List.cons_append, turnItems, h d List.mem_cons_self, if_neg (by simp),
      ih fun e he => h e (List.mem_cons_of_mem _ he), List.cons_append]

theorem turnItems_done {d : Delta} (hd : isDone d = true) (ds : List Delta) : turnItems (d :: ds) = [d] := by
  rw [turnItems, if_pos hd]

/-! ## What a stream reports -/

/-- The counts a chunk reports, as the provider has them. -/
def reported (v : Json) : Option (Nat × Nat) :=
  (get "usage" v).bind fun u =>
    match u with
    | .null => none
    | u =>
      let input := count "prompt_tokens" "input_tokens" u
      let output := count "completion_tokens" "output_tokens" u
      if input = 0 ∧ output = 0 then none else some (input, output)

def counts (u : Usage) : Nat × Nat := (u.inputTokens, u.outputTokens)

/-- The last input count after one more report. -/
def recordReport (old : Option Int) (r : Nat × Nat) : Option Int := if 0 < r.1 then some r.1 else old

/-- A chunk that holds nothing for anybody. -/
structure SilentChunk (v : Json) : Prop where
  delta : ∀ d, delta v = some d →
    nonEmpty "content" d = none ∧ nonEmpty "reasoning_content" d = none ∧ firstFragment d = none
  usage : reported v = none
  finish : finishReason v = none

section Stream

variable (readJson : List Char → Option Json)

/-- The payloads the stream gets to read. -/
def received (ps : List (List Char)) : List (List Char) := ps.takeWhile fun p => p ≠ doneMarker

def reports (ps : List (List Char)) : List (Nat × Nat) :=
  (received ps).filterMap fun p => (readJson p).bind reported

/-- No item follows the first end, and so a turn takes the whole stream, however the bytes of the
payloads come in; every usage reported is among the items a turn takes, and a run that takes them
has recorded the last input count. -/
structure UsageKept (ps : List (List Char)) : Prop where
  last : turnItems (payloadItems readJson ps).1 = (payloadItems readJson ps).1
  stream : ∀ (sse : SseBuffer) chunks, sse.pushes chunks = ps →
    streamChat readJson sse (chunks.map .bytes) = (turnItems (payloadItems readJson ps).1).map .ok
  usage : ((turnItems (payloadItems readJson ps).1).filterMap usageOf).map counts = reports readJson ps
  run : ∀ ctx s t as, Steps.exec (step ctx) s as = some t →
    items as = turnItems (payloadItems readJson ps).1 →
    t.lastInputTokens = (reports readJson ps).foldl recordReport s.lastInputTokens

def SilentPayload (p : List Char) : Prop := p ≠ doneMarker ∧ ∀ v, readJson p = some v → SilentChunk v

/-- Behind the first payload with a finish reason all are silent. -/
def QuietAfter (silent : List Char → Prop) : List (List Char) → Prop
  | [] => True
  | p :: ps => p ≠ doneMarker →
      if ((readJson p).bind finishReason).isSome then ∀ q ∈ ps, silent q else QuietAfter silent ps

structure OneEnd (ps : List (List Char)) : Prop where
  quiet : QuietAfter readJson (SilentPayload readJson) ps
  small : ∀ r ∈ reports readJson ps, r.1 < 2 ^ 32 ∧ r.2 < 2 ^ 32

variable {readJson} {ps : List (List Char)}

theorem received_cons {p : List Char} (hp : p ≠ doneMarker) (ps : List (List Char)) :
    received (p :: ps) = p :: received ps := by
  unfold received
  rw [List.takeWhile_cons_of_pos (by simpa using hp)]

theorem received_eq (h : ∀ p ∈ ps, p ≠ doneMarker) : received ps = ps :=
  List.takeWhile_eq_self_iff.2 (by simpa using h)

theorem QuietAfter.mono {P Q : List Char → Prop} (hne : ∀ p, P p → p ≠ doneMarker)
    (hPQ : ∀ p ∈ received ps, P p → Q p) (h : QuietAfter readJson P ps) : QuietAfter readJson Q ps := by
  induction ps with
  | nil => trivial
  | cons p ps ih =>
    intro hp
    have hquiet := h hp
    rw [received_cons hp] at hPQ
    split at hquiet
    · next hfinish =>
      rw [if_pos hfinish]
      intro q hq
      refine hPQ q (List.mem_cons_of_mem _ ?_) (hquiet q hq)
      rw [received_eq fun q hq => hne q (hquiet q hq)]
      exact hq
    · next hfinish =>
      rw [if_neg hfinish]
      exact ih (fun q hq => hPQ q (List.mem_cons_of_mem _ hq)) hquiet

theorem payloadItems_cons {p : List Char} (hp : p ≠ doneMarker) (ps : List (List Char)) :
    (payloadItems readJson (p :: ps)).1 = parsePayload readJson p ++ (payloadItems readJson ps).1 := by
  simp only [payloadItems, if_neg hp]

theorem payloadItems_eq_nil :
    (payloadItems readJson ps).1 = [] ↔ ∀ p ∈ ps, p ≠ doneMarker ∧ parsePayload readJson p = [] := by
  induction ps with
  | nil => simp [payloadItems]
  | cons p ps ih =>
    by_cases hp : p = doneMarker
    · simp [payloadItems, hp]
    · rw [payloadItems_cons hp, List.append_eq_nil_iff, ih]
      simp [hp]

theorem parsePayload_eq (readJson : List Char → Option Json) (p : List Char) :
    ∃ ds, (∀ d ∈ ds, isDone d = false) ∧
      parsePayload readJson p = ds ++ (((readJson p).bind finishReason).map Delta.done).toList := by
  unfold parsePayload
  cases readJson p with
  | none => exact ⟨[], by simp, rfl⟩
  | some v => exact ⟨openItems v, isDone_openItems v, parseChunk_eq v⟩

/-- Nothing follows the first end exactly when nothing comes of the payloads behind it. -/
theorem last_iff :
    turnItems (payloadItems readJson ps).1 = (payloadItems readJson ps).1 ↔
      QuietAfter readJson (fun p => p ≠ doneMarker ∧ parsePayload readJson p = []) ps := by
  induction ps with
  | nil => simp [payloadItems, turnItems, QuietAfter]
  | cons p ps ih =>
    by_cases hp : p = doneMarker
    · simp [payloadItems, turnItems, QuietAfter, hp, isDone]
    · obtain ⟨ds, hds, hparse⟩ := parsePayload_eq readJson p
      rw [payloadItems_cons hp, hparse, List.append_assoc, turnItems_append hds, List.append_cancel_left_eq]
      simp only [QuietAfter]
      cases hfinish : (readJson p).bind finishReason with
      | none => simp [hp, ih]
      | some r =>
        simp only [Option.map_some, Option.toList_some, List.singleton_append, Option.isSome_some, if_true]
        rw [turnItems_done rfl]
        have hnil : (payloadItems readJson ps).1 = [] ↔
            ∀ q ∈ ps, q ≠ doneMarker ∧ parsePayload readJson q = [] := payloadItems_eq_nil
        constructor
        · intro h _
          exact hnil.1 (List.cons.inj h).2.symm
        · intro h
          rw [hnil.2 (h hp)]

theorem usageOf_payloadItems (ps : List (List Char)) :
    (payloadItems readJson ps).1.filterMap usageOf =
      (received ps).filterMap fun p => (readJson p).bind parseUsage := by
  induction ps with
  | nil => rfl
  | cons p ps ih =>
    by_cases hp : p = doneMarker
    · simp [payloadItems, received, hp, usageOf]
    · have hfirst : (parsePayload readJson p).filterMap usageOf = ((readJson p).bind parseUsage).toList := by
        unfold parsePayload
        cases readJson p with
        | none => rfl
        | some v => exact usageOf_parseChunk v
      rw [payloadItems_cons hp, received_cons hp, List.filterMap_append, ih, hfirst]
      cases h : (readJson p).bind parseUsage with
      | none => simp [h]
      | some u => simp [h]

/-- Counts that fit come out as they are; of two that do not at least one comes out another. -/
theorem cut_iff (input output : Nat) :
    (if input % 2 ^ 32 = 0 ∧ output % 2 ^ 32 = 0 then none
      else some (Usage.mk (input % 2 ^ 32) (output % 2 ^ 32))).map counts =
        (if input = 0 ∧ output = 0 then none else some (input, output)) ↔
      ∀ r, (if input = 0 ∧ output = 0 then none else some (input, output)) = some r →
        r.1 < 2 ^ 32 ∧ r.2 < 2 ^ 32 := by
  by_cases hnone : input = 0 ∧ output = 0
  · simp [hnone]
  · rw [if_neg hnone]
    constructor
    · intro h r hr
      obtain rfl := Option.some.inj hr
      split at h
      · simp at h
      · have heq := Option.some.inj h
        simp only [counts, Prod.mk.injEq] at heq
        have hpos : 0 < 2 ^ 32 := by decide
        have hin := Nat.mod_lt input hpos
        have hout := Nat.mod_lt output hpos
        exact ⟨by omega, by omega⟩
    · intro h
      obtain ⟨hin, hout⟩ := h _ rfl
      rw [Nat.mod_eq_of_lt hin, Nat.mod_eq_of_lt hout, if_neg hnone]
      rfl

theorem parseUsage_iff (v : Json) :
    (parseUsage v).map counts = reported v ↔ ∀ r, reported v = some r → r.1 < 2 ^ 32 ∧ r.2 < 2 ^ 32 := by
  unfold parseUsage reported
  cases get "usage" v with
  | none => simp
  | some u =>
    have hcut := cut_iff (count "prompt_tokens" "input_tokens" u) (count "completion_tokens" "output_tokens" u)
    cases u with
    | null => simp
    | _ => exact hcut

theorem usage_iff (ps : List (List Char)) :
    ((payloadItems readJson ps).1.filterMap usageOf).map counts = reports readJson ps ↔
      ∀ r ∈ reports readJson ps, r.1 < 2 ^ 32 ∧ r.2 < 2 ^ 32 := by
  have hpoint (p : List Char) : ((readJson p).bind parseUsage).map counts = (readJson p).bind reported ↔
      ∀ r, (readJson p).bind reported = some r → r.1 < 2 ^ 32 ∧ r.2 < 2 ^ 32 := by
    cases readJson p with
    | none => simp
    | some v => exact parseUsage_iff v
  rw [usageOf_payloadItems, List.map_filterMap]
  constructor
  · intro h r hr
    obtain ⟨p, hp, hpr⟩ := List.mem_filterMap.1 hr
    refine (hpoint p).1 ?_ r hpr
    unfold reports at h
    rw [List.filterMap_eq_flatMap_toList, List.filterMap_eq_flatMap_toList] at h
    have htoList := eq_of_flatMap_eq (fun q _ => ?_) h p hp
    · simpa using congrArg List.head? htoList
    · -- A report that does not come out leaves no item behind.
      cases hread : readJson q with
      | none => simp
      | some v =>
        simp only [Option.bind_some]
        cases hreported : reported v with
        | none =>
          have hnone : (parseUsage v).map counts = none := by
            rw [← hreported]
            exact (parseUsage_iff v).2 (by simp [hreported])
          simp [hnone]
        | some r => cases (parseUsage v).map counts <;> simp
  · intro h
    refine List.filterMap_congr fun p hp => (hpoint p).2 fun r hr => h r ?_
    exact List.mem_filterMap.2 ⟨p, hp, hr⟩

theorem parseChunk_eq_nil {v : Json} (h : (parseUsage v).map counts = reported v) :
    parseChunk v = [] ↔ SilentChunk v := by
  have husage : parseUsage v = none ↔ reported v = none := by
    rw [← h, Option.map_eq_none_iff]
  have hdelta : (delta v).elim [] deltaItems = [] ↔ ∀ d, delta v = some d →
      nonEmpty "content" d = none ∧ nonEmpty "reasoning_content" d = none ∧ firstFragment d = none := by
    cases delta v with
    | none => simp
    | some d => simp [deltaItems]
  simp only [parseChunk, List.append_eq_nil_iff, Option.toList_eq_nil_iff, Option.map_eq_none_iff, hdelta, husage]
  constructor
  · rintro ⟨⟨hdelta, husage⟩, hfinish⟩
    exact ⟨hdelta, husage, hfinish⟩
  · rintro ⟨hdelta, husage, hfinish⟩
    exact ⟨⟨hdelta, husage⟩, hfinish⟩

theorem silentPayload_iff (hsmall : ∀ r ∈ reports readJson ps, r.1 < 2 ^ 32 ∧ r.2 < 2 ^ 32)
    {p : List Char} (hp : p ∈ received ps) :
    SilentPayload readJson p ↔ p ≠ doneMarker ∧ parsePayload readJson p = [] := by
  unfold SilentPayload parsePayload
  cases hread : readJson p with
  | none => simp
  | some v =>
    have hsame : (parseUsage v).map counts = reported v :=
      (parseUsage_iff v).2 fun r hr =>
        hsmall r (List.mem_filterMap.2 ⟨p, hp, by rw [hread, Option.bind_some, hr]⟩)
    simp [parseChunk_eq_nil hsame]

theorem foldl_recordItem (ds : List Delta) (old : Option Int) :
    ds.foldl recordItem old = ((ds.filterMap usageOf).map counts).foldl recordReport old := by
  induction ds generalizing old with
  | nil => rfl
  | cons d ds ih =>
    rw [List.foldl_cons, ih]
    cases d <;> rfl

/-- Exactly for these payloads the usage is kept and nothing follows the first end. -/
theorem usageKept_iff (readJson : List Char → Option Json) (ps : List (List Char)) :
    UsageKept readJson ps ↔ OneEnd readJson ps := by
  constructor
  · rintro ⟨hlast, -, husage, -⟩
    rw [hlast] at husage
    have hsmall := (usage_iff ps).1 husage
    exact ⟨(last_iff.1 hlast).mono (fun p hp => hp.1) fun p hp => (silentPayload_iff hsmall hp).2, hsmall⟩
  · rintro ⟨hquiet, hsmall⟩
    have hlast := last_iff.2 (hquiet.mono (fun p hp => hp.1) fun p hp => (silentPayload_iff hsmall hp).1)
    have husage := (usage_iff ps).2 hsmall
    refine ⟨hlast, fun sse chunks hpushes => ?_, by rw [hlast, husage], fun ctx s t as hrun hitems => ?_⟩
    · rw [streamChat_bytes, hpushes, hlast]
    · rw [exec_last hrun, hitems, hlast, foldl_recordItem, husage]

theorem render_ne_doneMarker (v : Json) : v.render ≠ doneMarker := by
  intro h
  have hparse := Json.parse_render v
  rw [h, show Json.parse doneMarker = none by decide] at hparse
  cases hparse

theorem payloadItems_render (v : Json) (ps : List (List Char)) :
    (payloadItems Json.parse (v.render :: ps)).1 = parseChunk v ++ (payloadItems Json.parse ps).1 := by
  rw [payloadItems_cons (render_ne_doneMarker v), parsePayload, Json.parse_render, Option.elim_some]

/-- The usage in a chunk of its own behind the finish reason, then `[DONE]`: the turn is over before
the usage comes. -/
theorem usageKept_fails :
    ∃ ps, ¬ UsageKept Json.parse ps ∧ reports Json.parse ps = [(12, 5)] ∧
      (payloadItems Json.parse ps).1 =
        [.done .stop, .usage { inputTokens := 12, outputTokens := 5 }, .done .stop] ∧
      turnItems (payloadItems Json.parse ps).1 = [.done .stop] := by
  let finish : Json := .obj [("choices", .arr [.obj [("delta", .obj []), ("finish_reason", .str "stop")]])]
  let usage : Json := .obj [("choices", .arr []),
    ("usage", .obj [("prompt_tokens", .num ⟨['1', '2'], by decide⟩),
      ("completion_tokens", .num ⟨['5'], by decide⟩)])]
  have hitems : (payloadItems Json.parse [finish.render, usage.render, doneMarker]).1 =
      [.done .stop, .usage { inputTokens := 12, outputTokens := 5 }, .done .stop] := by
    rw [payloadItems_render, payloadItems_render]
    decide
  have hreports : reports Json.parse [finish.render, usage.render, doneMarker] = [(12, 5)] := by
    have hreceived : received [finish.render, usage.render, doneMarker] = [finish.render, usage.render] := by
      rw [received_cons (render_ne_doneMarker _), received_cons (render_ne_doneMarker _)]
      simp [received]
    rw [reports, hreceived]
    simp only [List.filterMap_cons, Json.parse_render, Option.bind_some, List.filterMap_nil]
    decide
  refine ⟨_, fun h => ?_, hreports, hitems, by rw [hitems]; rfl⟩
  have hlast := h.last
  rw [hitems] at hlast
  exact absurd hlast (by decide)

/-- A stream that names its reason and then closes with `[DONE]` always has a second end. -/
theorem not_oneEnd {front back rest : List (List Char)} {p : List Char} {r : FinishReason}
    (hfront : doneMarker ∉ front) (hp : p ≠ doneMarker) (hfinish : (readJson p).bind finishReason = some r) :
    ¬ OneEnd readJson (front ++ p :: (back ++ doneMarker :: rest)) := by
  intro h
  have hquiet := h.quiet
  clear h
  induction front with
  | nil =>
    have hsilent := hquiet hp
    rw [hfinish, Option.isSome_some, if_pos rfl] at hsilent
    exact (hsilent doneMarker (by simp)).1 rfl
  | cons q front ih =>
    simp only [List.mem_cons, not_or] at hfront
    have hrest := hquiet (Ne.symm hfront.1)
    by_cases hq : ((readJson q).bind finishReason).isSome = true
    · rw [if_pos hq] at hrest
      exact (hrest doneMarker (by simp)).1 rfl
    · rw [if_neg hq] at hrest
      exact ih hfront.2 hrest

end Stream

end OhMyClaw.Run
