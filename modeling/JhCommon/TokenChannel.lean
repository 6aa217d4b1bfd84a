import Mathlib.Tactic

/-! A queue whose items are announced by tokens on a channel: an item is pushed before its token is
written, and a token is read before an item is taken off for it. Items are also removed without
their tokens. -/
namespace JhCommon.TokenChannel

/-- How many items are queued, how many tokens are in the channel and in the reader's hand, and how
many tokens are still to be written for items that were pushed. -/
structure Counts where
  queued : ℕ
  tokens : ℕ
  inHand : ℕ
  unwritten : ℕ

/-- Nothing that is queued goes unnoticed. -/
def Counts.Covered (c : Counts) : Prop := c.queued ≤ c.tokens+c.inHand+c.unwritten

/-- What can happen. A reader that finds nothing for its token goes on, and so does one that stops
with the token in its hand. -/
inductive Moves : Counts → Counts → Prop
  | push (q t i u : ℕ) : Moves ⟨q,t,i,u⟩ ⟨q+1,t,i,u+1⟩
  | write (q t i u : ℕ) : Moves ⟨q,t,i,u+1⟩ ⟨q,t+1,i,u⟩
  | read (q t i u : ℕ) : Moves ⟨q,t+1,i,u⟩ ⟨q,t,i+1,u⟩
  | take (q t i u : ℕ) : Moves ⟨q,t,i+1,u⟩ ⟨q-1,t,i,u⟩
  | remove {q q' : ℕ} (t i u : ℕ) (h : q' ≤ q) : Moves ⟨q,t,i,u⟩ ⟨q',t,i,u⟩

variable {c c' : Counts}

theorem Moves.stay (c : Counts) : Moves c c := .remove c.tokens c.inHand c.unwritten le_rfl

theorem Moves.covered (h : Moves c c') (hc : c.Covered) : c'.Covered := by
  unfold Counts.Covered at *
  cases h <;> dsimp only at * <;> omega

/-- With no token anywhere, nothing is queued. -/
theorem Counts.Covered.empty (hc : c.Covered) (htokens : c.tokens = 0) (hhand : c.inHand = 0)
    (hunwritten : c.unwritten = 0) : c.queued = 0 := by
  unfold Counts.Covered at hc
  omega

end JhCommon.TokenChannel
