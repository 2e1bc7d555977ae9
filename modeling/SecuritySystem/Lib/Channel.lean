/-
SecuritySystem/Lib/Channel.lean

Requests and answers over two channels that keep their order.

What a run has done is a list of events, newest first; `history f` picks from
it what is of interest, oldest first.  A channel is described by what was put
into it, what was taken out and what is in flight (`Fifo`), and a server that
answers with `f` by what it has got, what it has put and the answer it is
about to put (`Replying`).

The server may leave messages out (`f` is partial), and it may end before its
last answer.  Over both channels, the client still gets the answers to its
requests, in the order of the requests, and none twice (`Fifo.prefix_replies`).
-/
import Mathlib.Data.List.Basic

namespace Channel

variable {E α β : Type*}

/-! ### Histories -/

/-- What `f` sees of the events, oldest first. -/
def history (f : E → Option α) (trace : List E) : List α := (trace.filterMap f).reverse

variable {f : E → Option α} {trace : List E} {e : E} {a : α}

@[simp] theorem history_nil (f : E → Option α) : history f [] = [] := rfl

@[simp] theorem history_cons (f : E → Option α) (e : E) (trace : List E) :
    history f (e :: trace) = history f trace ++ (f e).toList := by
  rcases h : f e with - | a <;> simp [history, h]

theorem history_cons_none (h : f e = none) : history f (e :: trace) = history f trace := by
  simp [h]

theorem history_cons_some (h : f e = some a) : history f (e :: trace) = history f trace ++ [a] := by
  simp [h]

theorem mem_history : a ∈ history f trace ↔ ∃ e ∈ trace, f e = some a := by
  simp [history]

/-! ### Channels -/

/-- What was put is what was taken, and behind it what is in flight. -/
def Fifo (put taken flight : List α) : Prop := taken ++ flight = put

variable {put taken flight : List α}

namespace Fifo

theorem empty : Fifo ([] : List α) [] [] := rfl

theorem push (h : Fifo put taken flight) (a : α) : Fifo (put ++ [a]) taken (flight ++ [a]) := by
  rw [Fifo, ← List.append_assoc, h]

theorem pop (h : Fifo put taken (a :: flight)) : Fifo put (taken ++ [a]) flight := by
  rw [Fifo, List.append_assoc]
  exact h

/-- Nothing is taken that was not put, nothing twice, and nothing out of
order. -/
theorem prefix_put (h : Fifo put taken flight) : taken <+: put := ⟨flight, h⟩

end Fifo

/-! ### Servers -/

/-- The answers to what was taken are what was put, and the answer at hand. -/
def Replying (f : α → Option β) (taken : List α) (put : List β) (held : Option β) : Prop :=
  put ++ held.toList = taken.filterMap f

variable {f : α → Option β} {replies : List β} {b : β} {held : Option β}

namespace Replying

theorem empty (f : α → Option β) : Replying f [] [] none := rfl

/-- A message is taken, and its answer is at hand. -/
theorem take (h : Replying f taken replies none) (a : α) :
    Replying f (taken ++ [a]) replies (f a) := by
  rw [Replying, List.filterMap_append, ← h]
  rcases hf : f a with - | b <;> simp [hf]

/-- The answer at hand is put. -/
theorem reply (h : Replying f taken replies (some b)) : Replying f taken (replies ++ [b]) none := by
  rw [Replying, ← h]
  simp

theorem prefix_replies (h : Replying f taken replies held) : replies <+: taken.filterMap f :=
  ⟨held.toList, h⟩

theorem length_le (h : Replying f taken replies held) :
    (taken.filterMap f).length ≤ replies.length + 1 := by
  rw [← h, List.length_append]
  cases held <;> simp

end Replying

/-- **Answers over two channels**: what the client takes are the first answers
to what it has put, in order. -/
theorem Fifo.prefix_replies {back backFlight : List β} (hto : Fifo put taken flight)
    (hserver : Replying f taken replies held) (hfrom : Fifo replies back backFlight) :
    back <+: put.filterMap f :=
  hfrom.prefix_put.trans (hserver.prefix_replies.trans (hto.prefix_put.filterMap f))

end Channel
