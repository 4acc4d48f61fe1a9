import KernelTests.CAgent.History
import KernelTests.Json.RoundTrip

/-!
# The exit status

What the return value of `agent_run` says about the replies.  A missing reply, a
reply that is not JSON and a reply without choices end the run with -1.  Two runs
return 0 although no final answer was received: when the choice has no message
object, and when all fifty replies carry tool calls.
-/

namespace KernelTests.CAgent

open Effects

variable (ν : Type) [CNumber ν]

/-! ## Kinds of replies -/

/-- The reply has a message object without tool calls. -/
def FinalAnswer (reply : Option CString) : Prop :=
  ∃ members : List (CString × Json ν), chosenMessage reply = some (some (.object members)) ∧
    toolCalls (some (.object members)) = []

/-- The reply has a message with tool calls. -/
def CarriesToolCalls (reply : Option CString) : Prop :=
  ∃ message : Option (Json ν), chosenMessage reply = some message ∧ toolCalls message ≠ []

/-- The reply has a choice, but its message is missing or not an object. -/
def Messageless (reply : Option CString) : Prop :=
  ∃ message : Option (Json ν), chosenMessage reply = some message ∧
    ∀ members, message ≠ some (.object members)

variable {ν}

theorem FinalAnswer.not_carriesToolCalls {reply : Option CString} (h : FinalAnswer ν reply) :
    ¬ CarriesToolCalls ν reply := by
  rintro ⟨message, hm, hc⟩
  obtain ⟨members, hf, hn⟩ := h
  rw [hf, Option.some.injEq] at hm
  exact hc (hm ▸ hn)

/-! ## Runs -/

section Runs

variable {σ : Type} (k : Kernel σ) (ctx : ToolContext) (client : HttpClient)

/-- A step that goes on has received tool calls. -/
theorem carriesToolCalls_of_inr {state state' : ℕ × List (Json ν)} {w : σ}
    (h : ((agentStep k ctx client state).run w).val = .inr state') :
    CarriesToolCalls ν (stepReply (ν := ν) k client state.2 w) := by
  cases hm : chosenMessage (ν := ν) (stepReply k client state.2 w) with
  | none =>
      rw [val_agentStep_of_none k ctx client state hm] at h
      cases h
  | some message =>
      refine ⟨message, hm, fun hc ↦ ?_⟩
      rw [val_agentStep_of_nil k ctx client state hm hc] at h
      cases h

/-- The completed rounds received one reply each, and all of them carry tool calls. -/
theorem replies_of_rounds {state state' : ℕ × List (Json ν)} {w w' : σ}
    {ts : List (List (Event ν))}
    (h : Traced.Rounds (agentStep k ctx client) state w ts state' w') :
    (requests ts.flatten).length = ts.length ∧
      ∀ reply ∈ replies ts.flatten, CarriesToolCalls ν reply := by
  induction h with
  | nil => simp [requests, replies]
  | @cons s _ _ w _ _ t ts hb _ ih =>
      have hreq := requests_agentStep k ctx client s w
      have hrep := replies_agentStep k ctx client s w
      have hcarry := carriesToolCalls_of_inr k ctx client (congrArg Outcome.val hb)
      rw [hb] at hreq hrep
      simp only at hreq hrep
      refine ⟨by simp [hreq, ih.1, Nat.add_comm], ?_⟩
      rw [List.flatten_cons, replies_append, hrep]
      exact List.forall_mem_cons.mpr ⟨hcarry, ih.2⟩

/-- The last step of a run that ends within the budget returns 0 exactly if there is a choice,
and that choice has no tool calls. -/
theorem val_agentStep_inl {state : ℕ × List (Json ν)} {w : σ} {code : ℤ}
    (h : ((agentStep k ctx client state).run w).val = .inl code) :
    ¬ CarriesToolCalls ν (stepReply (ν := ν) k client state.2 w) ∧
      (code = 0 ↔ (chosenMessage (ν := ν) (stepReply k client state.2 w)).isSome) := by
  cases hm : chosenMessage (ν := ν) (stepReply k client state.2 w) with
  | none =>
      rw [val_agentStep_of_none k ctx client state hm] at h
      cases h
      refine ⟨?_, by simp⟩
      rintro ⟨_, hc, _⟩
      rw [hm] at hc
      cases hc
  | some message =>
      by_cases hc : toolCalls message = []
      · rw [val_agentStep_of_nil k ctx client state hm hc] at h
        cases h
        refine ⟨fun ⟨message', hm', hc'⟩ ↦ ?_, by simp⟩
        rw [hm, Option.some.injEq] at hm'
        exact hc' (hm' ▸ hc)
      · have he := (agentStep_of_cons k ctx client state hm hc).1
        rw [he] at h
        cases h

/-- A reply that has a choice and no tool calls is a final answer or has no message object. -/
theorem finalAnswer_or_messageless {reply : Option CString}
    (h : (chosenMessage (ν := ν) reply).isSome) (hc : ¬ CarriesToolCalls ν reply) :
    FinalAnswer ν reply ↔ ¬ Messageless ν reply := by
  obtain ⟨message, hm⟩ := Option.isSome_iff_exists.mp h
  have hnil : toolCalls message = [] := by
    by_contra hne
    exact hc ⟨message, hm, hne⟩
  constructor
  · rintro ⟨members, hf, _⟩ ⟨message', hm', hno⟩
    rw [hf, Option.some.injEq] at hm'
    exact hno members hm'.symm
  · intro hless
    by_contra hf
    refine hless ⟨message, hm, fun members he ↦ hf ⟨members, ?_, ?_⟩⟩
    · rw [hm, he]
    · rw [← he, hnil]

/-- Some reply carries no tool calls, and it is not a choice without a message object. -/
def Conclusive (rs : List (Option CString)) : Prop :=
  ∃ reply ∈ rs, ¬ CarriesToolCalls ν reply ∧ ¬ Messageless ν reply

/-- The return value 0 stands for a final answer exactly on the runs whose replies are
conclusive.  No run makes more than fifty requests. -/
theorem agentRun_status (prompt : CString) (w : σ) :
    let o := (agentRun (ν := ν) k ctx client prompt).run w
    (requests o.trace).length ≤ 50 ∧
      ((o.val = 0 → ∃ reply ∈ replies o.trace, FinalAnswer ν reply) ↔
        Conclusive (ν := ν) (replies o.trace)) := by
  intro o
  rcases Traced.iterate_cases (agentStep (ν := ν) k ctx client) budgetExhausted maxSteps
      (0, initialMessages prompt) w with
    ⟨ts, s, w', code, t, w'', hn, hr, hb, he⟩ | ⟨ts, s, w', hn, hr, he⟩
  · have hreq := requests_agentStep k ctx client s w'
    have hrep := replies_agentStep k ctx client s w'
    obtain ⟨hlen, hall⟩ := replies_of_rounds k ctx client hr
    obtain ⟨hcarry, hcode⟩ := val_agentStep_inl k ctx client (congrArg Outcome.val hb)
    rw [hb] at hreq hrep
    simp only at hreq hrep
    have ho : o = ⟨code, ts.flatten ++ t, w''⟩ := he
    have hreplies : replies o.trace = replies ts.flatten ++ [stepReply (ν := ν) k client s.2 w'] := by
      rw [ho, replies_append, hrep]
    refine ⟨?_, ?_⟩
    · rw [ho, requests_append, List.length_append, hlen, hreq]
      exact hn
    · rw [hreplies, ho]
      constructor
      · intro h
        refine ⟨_, by simp, hcarry, fun hless ↦ ?_⟩
        obtain ⟨message, hm, hno⟩ := id hless
        have hsome : (chosenMessage (ν := ν) (stepReply (ν := ν) k client s.2 w')).isSome := by
          rw [hm]
          rfl
        obtain ⟨reply, hmem, hfinal⟩ := h (hcode.mpr hsome)
        rcases List.mem_append.mp hmem with hmem | hmem
        · exact hfinal.not_carriesToolCalls (hall reply hmem)
        · rw [List.mem_singleton.mp hmem] at hfinal
          exact (finalAnswer_or_messageless hsome hcarry).mp hfinal hless
      · rintro ⟨reply, hmem, hno, hless⟩ h0
        rcases List.mem_append.mp hmem with hmem | hmem
        · exact absurd (hall reply hmem) hno
        · rw [List.mem_singleton.mp hmem] at hless
          exact ⟨_, by simp, (finalAnswer_or_messageless (hcode.mp h0) hcarry).mpr hless⟩
  · obtain ⟨hlen, hall⟩ := replies_of_rounds k ctx client hr
    have hreplies : replies o.trace = replies ts.flatten := by
      have ho : o.trace = ts.flatten ++ (budgetExhausted (ν := ν).run w').trace :=
        congrArg Outcome.trace he
      rw [ho, replies_append]
      exact List.append_nil _
    have hval : o.val = 0 := congrArg Outcome.val he
    refine ⟨?_, ?_⟩
    · have ho : o.trace = ts.flatten ++ (budgetExhausted (ν := ν).run w').trace :=
        congrArg Outcome.trace he
      rw [ho, requests_append, List.length_append, hlen, hn]
      exact le_refl 50
    · rw [hreplies]
      constructor
      · intro h
        obtain ⟨reply, hmem, hfinal⟩ := h hval
        exact absurd (hall reply hmem) hfinal.not_carriesToolCalls
      · rintro ⟨reply, hmem, hno, _⟩
        exact absurd (hall reply hmem) hno

end Runs

/-- A choice without a message ends the run with 0, and no final answer was received. -/
theorem agentRun_status_messageless :
    let o := (agentRun (ν := ℤ) (replay []) ⟨.lit "."⟩ localClient (.lit "hi")).run
      [Json.printUnformatted (.object [member "choices" (.array [.object []])] : Json ℤ)]
    o.val = 0 ∧ ¬ ∃ reply ∈ replies o.trace, FinalAnswer ℤ reply := by
  intro o
  have hchosen : chosenMessage (ν := ℤ) (stepReply (ν := ℤ) (replay []) localClient
      (initialMessages (.lit "hi"))
      [Json.printUnformatted (.object [member "choices" (.array [.object []])] : Json ℤ)]) =
      some none := by
    rw [stepReply_replay, chosenMessage_print (by decide)]
    rfl
  have hval := val_agentStep_of_nil (replay []) ⟨.lit "."⟩ localClient
    (0, initialMessages (.lit "hi")) hchosen rfl
  have ho := Traced.run_iterate_of_inl budgetExhausted 49 hval
  refine ⟨congrArg Outcome.val ho, ?_⟩
  rintro ⟨reply, hmem, members, hf, _⟩
  have htrace : replies o.trace = _ := congrArg (fun o ↦ replies o.trace) ho
  rw [htrace, replies_agentStep, List.mem_singleton] at hmem
  rw [hmem, hchosen] at hf
  cases hf

end KernelTests.CAgent
