import OhMyClaw.Llm.Types

/-!
# Message lists a provider accepts

An assistant message that makes a tool call and the tool message that answers it are one
unit: a provider rejects a request in which either half stands alone.  `ProtocolValid`
states this on positions.  `Blocks` is the same condition as a grammar: a valid list is a
sequence of plain messages and call/result pairs.  Proofs build and take apart `Blocks`;
`Blocks.protocolValid` is where the two meet.
-/

namespace OhMyClaw

/-- What a provider requires of the message list of a request. -/
structure ProtocolValid (msgs : List Message) : Prop where
  /-- A tool message directly follows an assistant message that makes the call it answers. -/
  result : ∀ (i : Nat) (r : Message), msgs[i]? = some r → r.role = .tool →
    ∃ j d, i = j + 1 ∧ msgs[j]? = some d ∧ d.role = .assistant ∧
      ∃ c ∈ d.toolCalls, r.toolCallId = some c.id
  /-- An assistant message with tool calls is directly followed by the tool message that
  answers it. -/
  dispatch : ∀ (i : Nat) (d : Message), msgs[i]? = some d → d.role = .assistant →
    d.toolCalls ≠ [] → ∃ r, msgs[i + 1]? = some r ∧ r.role = .tool ∧
      ∀ c ∈ d.toolCalls, r.toolCallId = some c.id
  /-- No assistant message is empty. -/
  nonempty : ∀ m ∈ msgs, m.role = .assistant → ¬ (m.content = "" ∧ m.toolCalls = [])

/-- A message that stands alone. -/
structure IsPlain (m : Message) : Prop where
  role : m.role ≠ .tool
  toolCalls : m.toolCalls = []
  content : m.role = .assistant → m.content ≠ ""
  toolCallId : m.toolCallId = none
  reasoning : m.reasoning = none

/-- A call and its answer. -/
structure IsPair (d r : Message) : Prop where
  dispatch_role : d.role = .assistant
  answered : ∃ c, d.toolCalls = [c] ∧ r.toolCallId = some c.id
  result_role : r.role = .tool
  result_calls : r.toolCalls = []
  dispatch_id : d.toolCallId = none
  result_reasoning : r.reasoning = none

inductive Blocks : List Message → Prop
  | nil : Blocks []
  | plain {m ms} : IsPlain m → Blocks ms → Blocks (m :: ms)
  | pair {d r ms} : IsPair d r → Blocks ms → Blocks (d :: r :: ms)

/-! ## Building block sequences -/

theorem Blocks.append {xs ys : List Message} (hx : Blocks xs) (hy : Blocks ys) :
    Blocks (xs ++ ys) := by
  induction hx with
  | nil => exact hy
  | plain hm _ ih => exact .plain hm ih
  | pair hp _ ih => exact .pair hp ih

theorem Blocks.snoc {xs : List Message} (hx : Blocks xs) {m : Message} (hm : IsPlain m) :
    Blocks (xs ++ [m]) :=
  hx.append (.plain hm .nil)

theorem Blocks.snoc_pair {xs : List Message} (hx : Blocks xs) {d r : Message} (hp : IsPair d r) :
    Blocks (xs ++ [d, r]) :=
  hx.append (.pair hp .nil)

theorem isPlain_user (c : String) : IsPlain (.plain .user c) :=
  ⟨by simp, rfl, by simp, rfl, rfl⟩

theorem isPlain_assistant {c : String} (h : c ≠ "") : IsPlain (.plain .assistant c) :=
  ⟨by simp, rfl, fun _ => h, rfl, rfl⟩

/-! ## Block sequences are valid -/

theorem IsPair.calls_ne_nil {d r : Message} (h : IsPair d r) : d.toolCalls ≠ [] := by
  obtain ⟨c, hc, _⟩ := h.answered
  simp [hc]

theorem Blocks.protocolValid {msgs : List Message} (h : Blocks msgs) : ProtocolValid msgs := by
  induction h with
  | nil => constructor <;> simp
  | @plain m ms hm _ ih =>
    constructor
    · intro i r hi hr
      cases i with
      | zero =>
        obtain rfl : m = r := by simpa using hi
        exact absurd hr hm.role
      | succ i =>
        obtain ⟨j, d, rfl, hj, hd, hc⟩ := ih.result i r (by simpa using hi) hr
        exact ⟨j + 1, d, rfl, by simpa using hj, hd, hc⟩
    · intro i d hi hd hcalls
      cases i with
      | zero =>
        obtain rfl : m = d := by simpa using hi
        exact absurd hm.toolCalls hcalls
      | succ i =>
        obtain ⟨r, hr, hrest⟩ := ih.dispatch i d (by simpa using hi) hd hcalls
        exact ⟨r, by simpa using hr, hrest⟩
    · intro m' hmem hrole hempty
      rcases List.mem_cons.1 hmem with rfl | hmem
      · exact hm.content hrole hempty.1
      · exact ih.nonempty m' hmem hrole hempty
  | @pair d r ms hp _ ih =>
    obtain ⟨c, hcalls, hid⟩ := hp.answered
    constructor
    · intro i r' hi hr'
      match i with
      | 0 =>
        obtain rfl : d = r' := by simpa using hi
        simp [hp.dispatch_role] at hr'
      | 1 =>
        obtain rfl : r = r' := by simpa using hi
        exact ⟨0, d, rfl, rfl, hp.dispatch_role, c, by simp [hcalls], hid⟩
      | i + 2 =>
        obtain ⟨j, d', rfl, hj, hd', hc⟩ := ih.result i r' (by simpa using hi) hr'
        exact ⟨j + 2, d', rfl, by simpa using hj, hd', hc⟩
    · intro i d' hi hd' hne
      match i with
      | 0 =>
        obtain rfl : d = d' := by simpa using hi
        exact ⟨r, rfl, hp.result_role, by simp [hcalls, hid]⟩
      | 1 =>
        obtain rfl : r = d' := by simpa using hi
        simp [hp.result_role] at hd'
      | i + 2 =>
        obtain ⟨r', hr', hrest⟩ := ih.dispatch i d' (by simpa using hi) hd' hne
        exact ⟨r', by simpa using hr', hrest⟩
    · intro m hmem hrole hempty
      rcases List.mem_cons.1 hmem with rfl | hmem
      · exact hp.calls_ne_nil hempty.2
      rcases List.mem_cons.1 hmem with rfl | hmem
      · simp [hp.result_role] at hrole
      · exact ih.nonempty m hmem hrole hempty

/-! ## Leaving out and editing blocks -/

/-- An edit that keeps a message's place in the protocol. -/
structure KeepsShape (g : Message → Message) : Prop where
  role : ∀ m, (g m).role = m.role
  toolCalls : ∀ m, (g m).toolCalls = m.toolCalls
  toolCallId : ∀ m, (g m).toolCallId = m.toolCallId
  content : ∀ m, m.content ≠ "" → (g m).content ≠ ""
  reasoning : ∀ m, (g m).reasoning = m.reasoning

theorem IsPlain.edit {g : Message → Message} (hg : KeepsShape g) {m : Message} (h : IsPlain m) :
    IsPlain (g m) := by
  refine ⟨?_, ?_, ?_, ?_, ?_⟩
  · rw [hg.role]
    exact h.role
  · rw [hg.toolCalls]
    exact h.toolCalls
  · rw [hg.role]
    intro hr
    exact hg.content m (h.content hr)
  · rw [hg.toolCallId]
    exact h.toolCallId
  · rw [hg.reasoning]
    exact h.reasoning

theorem IsPair.edit {g g' : Message → Message} (hg : KeepsShape g) (hg' : KeepsShape g')
    {d r : Message} (h : IsPair d r) : IsPair (g d) (g' r) := by
  obtain ⟨c, hcalls, hid⟩ := h.answered
  refine ⟨?_, ⟨c, ?_, ?_⟩, ?_, ?_, ?_, ?_⟩
  · rw [hg.role]
    exact h.dispatch_role
  · rw [hg.toolCalls]
    exact hcalls
  · rw [hg'.toolCallId]
    exact hid
  · rw [hg'.role]
    exact h.result_role
  · rw [hg'.toolCalls]
    exact h.result_calls
  · rw [hg.toolCallId]
    exact h.dispatch_id
  · rw [hg'.reasoning]
    exact h.result_reasoning

/-- Leave out the positions of `drop` and edit the others, position by position. -/
def keepEdited (drop : List Nat) (edit : Nat → Message → Message) (msgs : List (Message × Nat)) :
    List Message :=
  msgs.filterMap fun p => if drop.contains p.2 then none else some (edit p.2 p.1)

/-- Leaving out whole blocks and editing within the shape of the messages leaves a sequence
of blocks. -/
theorem Blocks.keepEdited {drop : List Nat} {edit : Nat → Message → Message}
    (hedit : ∀ i, KeepsShape (edit i)) {msgs : List Message} (h : Blocks msgs) (k : Nat)
    (hpairs : ∀ (i : Nat) (d r : Message), msgs[i]? = some d → msgs[i + 1]? = some r →
      IsPair d r → (k + i ∈ drop ↔ k + i + 1 ∈ drop)) :
    Blocks (keepEdited drop edit (msgs.zipIdx k)) := by
  induction h generalizing k with
  | nil => exact .nil
  | @plain m ms hm _ ih =>
    have hrest := ih (k + 1) (fun i d r hd hr hp => by
      have := hpairs (i + 1) d r (by simpa using hd) (by simpa using hr) hp
      rwa [show k + (i + 1) = k + 1 + i by omega] at this)
    simp only [OhMyClaw.keepEdited, List.zipIdx_cons, List.filterMap_cons] at hrest ⊢
    by_cases hk : drop.contains k
    · simpa only [hk, if_true] using hrest
    · simp only [hk, Bool.false_eq_true, if_false]
      exact .plain (hm.edit (hedit k)) hrest
  | @pair d r ms hp _ ih =>
    have hrest := ih (k + 2) (fun i d' r' hd hr hp' => by
      have := hpairs (i + 2) d' r' (by simpa using hd) (by simpa using hr) hp'
      rwa [show k + (i + 2) = k + 2 + i by omega] at this)
    have hiff := hpairs 0 d r rfl rfl hp
    simp only [Nat.add_zero] at hiff
    simp only [OhMyClaw.keepEdited, List.zipIdx_cons, List.filterMap_cons,
      List.contains_iff_mem] at hrest ⊢
    by_cases hk : k ∈ drop
    · simp only [hk, hiff.1 hk, if_true]
      exact hrest
    · have hk' : k + 1 ∉ drop := fun h' => hk (hiff.2 h')
      simp only [hk, hk', if_false]
      exact .pair (hp.edit (hedit k) (hedit (k + 1))) hrest

end OhMyClaw
