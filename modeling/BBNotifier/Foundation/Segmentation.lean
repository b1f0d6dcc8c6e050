import Mathlib.Data.List.Basic

/-! # Receivers that do not see segment boundaries

A receiver of a byte stream keeps what it has received until a verdict can be
given on it. When more input never changes a verdict, what the receiver has
settled on depends only on the bytes received, however they were cut.
-/

namespace BBNotifier.Foundation

variable {Item Result : Type}

/-- A verdict, once given on a received prefix, is given on all its
extensions. -/
def Stable (verdict : List Item → Option Result) : Prop :=
  ∀ received more result, verdict received = some result →
    verdict (received ++ more) = some result

/-- A receiver that still collects its input, or has settled. -/
inductive Receiver (Item Result : Type)
  | waiting (received : List Item)
  | settled (result : Result)

namespace Receiver

variable (verdict : List Item → Option Result)

/-- The receiver of a whole prefix, received in one piece. -/
def after (received : List Item) : Receiver Item Result :=
  match verdict received with
  | none => .waiting received
  | some result => .settled result

/-- Hand the next chunk to the receiver. A settled receiver discards it. -/
def feed : Receiver Item Result → List Item → Receiver Item Result
  | .waiting received, chunk => after verdict (received ++ chunk)
  | .settled result, _ => .settled result

variable {verdict}

theorem feed_after (hstable : Stable verdict) (received chunk : List Item) :
    feed verdict (after verdict received) chunk = after verdict (received ++ chunk) := by
  unfold after
  cases hverdict : verdict received with
  | none => rfl
  | some result => simp only [feed, hstable received chunk result hverdict]

/-- Feeding the chunks of a stream one by one is receiving it in one piece. -/
theorem feed_chunks (hstable : Stable verdict) (chunks : List (List Item))
    (received : List Item) :
    chunks.foldl (feed verdict) (after verdict received) =
      after verdict (received ++ chunks.flatten) := by
  induction chunks generalizing received with
  | nil => simp
  | cons chunk rest ih =>
      rw [List.foldl_cons, feed_after hstable, ih, List.flatten_cons, List.append_assoc]

end Receiver

end BBNotifier.Foundation
