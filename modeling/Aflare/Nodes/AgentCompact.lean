import Aflare.Go.Strings

/-!
# Compaction of an agent's conversation

Before each call of the model an agent compacts its conversation if it has become longer than a
budget: the first two messages and the last six stay, the assistant's messages between them stay as
well, and the others are replaced by one summary of theirs. The agent appends to what is left, and
compacts again.
-/

namespace Nodes

open Go List

structure LLMMessage where
  role : Str
  content : Str
  deriving DecidableEq

def agentKeepRecentMessages : ℕ := 6

def conversationChars (msgs : List LLMMessage) : ℕ := (msgs.map fun m => m.content.length).sum

def LLMMessage.isAssistant (m : LLMMessage) : Bool := m.role = str "assistant"

/-- The text of the messages that are not kept. -/
def bulkyText (msgs : List LLMMessage) : Str :=
  (msgs.filter fun m => !m.isAssistant).flatMap fun m => m.role ++ str ": " ++ m.content ++ str "\n"

section Compaction

-- the text that `compress.Compress` returns with the settings of the agent
variable (compress : Str → Str)

/-- The message in place of those that are not kept, if there are any. -/
def summaryMsg (bulky : Str) : List LLMMessage :=
  if bulky = [] then []
  else [⟨str "user",
    str "[Earlier steps compacted — summary of previous tool observations]\n" ++ compress bulky⟩]

variable (msgs : List LLMMessage)

def compactConversation (budget : ℤ) : List LLMMessage :=
  if budget ≤ 0 ∨ msgs.length ≤ 2 + agentKeepRecentMessages then msgs
  else if conversationChars msgs ≤ budget then msgs
  else
    let head := msgs.take 2
    let tail := msgs.drop (msgs.length - agentKeepRecentMessages)
    let middle := (msgs.take (msgs.length - agentKeepRecentMessages)).drop 2
    head ++ (summaryMsg compress (bulkyText middle) ++
      (middle.filter LLMMessage.isAssistant ++ tail))

/-- What an agent does to its conversation. -/
inductive ConversationOp
  | append (m : LLMMessage)
  | compact (budget : ℤ)

/-- The messages that an operation appends. -/
def ConversationOp.appended : ConversationOp → List LLMMessage
  | .append m => [m]
  | .compact _ => []

def ConversationOp.apply : ConversationOp → List LLMMessage
  | .append m => msgs ++ [m]
  | .compact budget => compactConversation compress msgs budget

variable (ops : List ConversationOp)

def conversationAfter : List LLMMessage := ops.foldl (ConversationOp.apply compress) msgs

variable (msgs : List LLMMessage) (budget : ℤ)

/-! ## One compaction -/

/-- A compaction leaves the conversation as it is, or replaces what is between the first two and the
last six messages by a summary and the assistant's messages. -/
theorem compactConversation_cases :
    compactConversation compress msgs budget = msgs ∨
      ∃ head middle tail, msgs = head ++ (middle ++ tail) ∧ head.length = 2 ∧
        tail = msgs.drop (msgs.length - agentKeepRecentMessages) ∧
        compactConversation compress msgs budget = head ++
          (summaryMsg compress (bulkyText middle) ++
            (middle.filter LLMMessage.isAssistant ++ tail)) := by
  unfold compactConversation
  split_ifs with hshort hbudget
  · exact .inl rfl
  · exact .inl rfl
  · refine .inr ⟨msgs.take 2, _, _, ?_, ?_, rfl, rfl⟩
    · have hfront := take_append_drop 2 (msgs.take (msgs.length - agentKeepRecentMessages))
      rw [take_take, Nat.min_eq_left (by omega)] at hfront
      rw [← append_assoc, hfront, take_append_drop]
    · rw [length_take]
      omega

theorem filter_summaryMsg (bulky : Str) :
    (summaryMsg compress bulky).filter LLMMessage.isAssistant = [] := by
  have huser : decide (str "user" = str "assistant") = false := by decide
  unfold summaryMsg
  split_ifs
  · rfl
  · simp [LLMMessage.isAssistant, huser]

theorem filter_compactConversation :
    (compactConversation compress msgs budget).filter LLMMessage.isAssistant =
      msgs.filter LLMMessage.isAssistant := by
  obtain hsame | ⟨head, middle, tail, hmsgs, -, -, hcompact⟩ :=
    compactConversation_cases compress msgs budget
  · rw [hsame]
  · rw [hcompact, hmsgs]
    simp only [filter_append, filter_summaryMsg, filter_filter, Bool.and_self, nil_append]

theorem take_compactConversation :
    (compactConversation compress msgs budget).take 2 = msgs.take 2 := by
  obtain hsame | ⟨head, middle, tail, hmsgs, hhead, -, hcompact⟩ :=
    compactConversation_cases compress msgs budget
  · rw [hsame]
  · rw [hcompact, hmsgs, take_left' hhead, take_left' hhead]

theorem recent_suffix_compactConversation :
    msgs.drop (msgs.length - agentKeepRecentMessages) <:+
      compactConversation compress msgs budget := by
  obtain hsame | ⟨head, middle, tail, -, -, htail, hcompact⟩ :=
    compactConversation_cases compress msgs budget
  · rw [hsame]
    exact drop_suffix _ _
  · rw [hcompact, ← htail, ← append_assoc, ← append_assoc]
    exact suffix_append _ _

/-! ## Whole conversations -/

theorem conversationAfter_concat (op : ConversationOp) :
    conversationAfter compress msgs (ops ++ [op]) =
      op.apply compress (conversationAfter compress msgs ops) := by
  simp [conversationAfter]

/-- What compactions leave alone is as if all messages had only been appended. -/
theorem conversationAfter_congr {β : Type} {f : List LLMMessage → β}
    (happend : ∀ l l' m, f l = f l' → f (l ++ [m]) = f (l' ++ [m]))
    (hcompact : ∀ l budget, f (compactConversation compress l budget) = f l)
    (ops : List ConversationOp) :
    f (conversationAfter compress msgs ops) = f (msgs ++ ops.flatMap ConversationOp.appended) := by
  induction ops using reverseRecOn with
  | nil => simp [conversationAfter]
  | append_singleton ops op ih =>
    rw [conversationAfter_concat, flatMap_append, ← append_assoc]
    cases op with
    | append m => exact happend _ _ m ih
    | compact budget =>
      refine (hcompact _ budget).trans (ih.trans ?_)
      simp [ConversationOp.appended]

/-- After any appends and compactions the assistant's messages are those that were ever appended, in
their order, and the first two messages are those of the start; each compaction keeps the last six
messages at the end. -/
theorem reasoning_retained :
    (conversationAfter compress msgs ops).filter LLMMessage.isAssistant =
        (msgs ++ ops.flatMap ConversationOp.appended).filter LLMMessage.isAssistant ∧
      (conversationAfter compress msgs ops).take 2 =
        (msgs ++ ops.flatMap ConversationOp.appended).take 2 ∧
      ∀ front budget, (conversationAfter compress msgs front).drop
          ((conversationAfter compress msgs front).length - agentKeepRecentMessages) <:+
        conversationAfter compress msgs (front ++ [.compact budget]) := by
  refine ⟨?_, ?_, ?_⟩
  · refine conversationAfter_congr compress msgs (fun l l' m h => ?_)
      (filter_compactConversation compress) ops
    rw [filter_append, h, ← filter_append]
  · refine conversationAfter_congr compress msgs (fun l l' m h => ?_)
      (take_compactConversation compress) ops
    have hlength := congrArg length h
    rw [length_take, length_take] at hlength
    rw [take_append, take_append, h]
    congr 2
    omega
  · intro front budget
    rw [conversationAfter_concat]
    exact recent_suffix_compactConversation compress _ budget

end Compaction

end Nodes
