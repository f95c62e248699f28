import LedgerApp.Lemmas.Machine

/-!
What a trace shows of one `start`: the calls made on its behalf, and among them the requests for
transactions, the answers and the updates.
-/

namespace LedgerApp

open Bytes Json11

variable {F : Double} {s s' : State}

def calls (origin : Nat) (trace : List Event) : List Call :=
  trace.filterMap fun
    | .called owner call => if owner = origin then some call else none
    | _ => none

def Call.isTxGet : Call → Bool
  | .get _ _ _ { context := _, cb := .transactions _ } => true
  | _ => false

def Call.answer : Call → Option (HandleResponse × Response)
  | .respond handle result => some (handle, result)
  | _ => none

def Call.shown : Call → Option (Observer × TransactionListVm)
  | .onUpdate observer newData => some (observer, newData)
  | _ => none

def txGets (origin : Nat) (trace : List Event) : List Call :=
  (calls origin trace).filter Call.isTxGet

def responds (origin : Nat) (trace : List Event) : List (HandleResponse × Response) :=
  (calls origin trace).filterMap Call.answer

def updates (origin : Nat) (trace : List Event) : List (Observer × TransactionListVm) :=
  (calls origin trace).filterMap Call.shown

@[simp]
theorem calls_append (origin : Nat) (t u : List Event)
    : calls origin (t ++ u) = calls origin t ++ calls origin u := by
  simp [calls]

@[simp]
theorem calls_started (origin owner : Nat) (start : Start) (t : List Event)
    : calls origin (.started owner start :: t) = calls origin t := rfl

@[simp]
theorem calls_replied (origin owner : Nat) (callback : HttpHandler) (reply : Reply)
    (t : List Event) : calls origin (.replied owner callback reply :: t) = calls origin t := rfl

@[simp]
theorem calls_ran (origin : Nat) (runnable : Runnable) (t : List Event)
    : calls origin (.ran runnable :: t) = calls origin t := rfl

@[simp]
theorem calls_called (origin : Nat) (call : Call) (t : List Event)
    : calls origin (.called origin call :: t) = call :: calls origin t := by
  simp [calls]

@[simp]
theorem calls_nil (origin : Nat) : calls origin [] = [] := rfl

@[simp]
theorem calls_map_called (origin : Nat) (made : List Call)
    : calls origin (made.map (.called origin)) = made := by
  induction made with
  | nil => rfl
  | cons call made ih => simp [ih]

theorem mem_calls {origin : Nat} {call : Call} {trace : List Event}
    : call ∈ calls origin trace ↔ .called origin call ∈ trace := by
  simp only [calls, List.mem_filterMap]
  constructor
  . intro h
    rcases h with ⟨event, hevent, h⟩
    cases event with
    | called owner made =>
      simp only [Option.ite_none_right_eq_some, Option.some.injEq] at h
      rw [← h.1, ← h.2]
      exact hevent
    | _ => contradiction
  . intro h
    exact ⟨_, h, by simp⟩

theorem calls_owned (origin : Nat) (trace : List Event)
    : calls origin (owned Event.origin origin trace) = calls origin trace := by
  unfold calls owned
  rw [List.filterMap_filter]
  apply List.filterMap_congr
  intro event _
  cases event with
  | called owner call =>
    by_cases h : owner = origin
    . simp [h, Event.origin]
    . simp [h, Event.origin]
  | _ => simp

@[simp]
theorem isTxGet_printed (json : Json F) : (printed json).filter Call.isTxGet = [] := by
  unfold printed
  split
  . rfl
  . rfl

@[simp]
theorem answer_printed (json : Json F) : (printed json).filterMap Call.answer = [] := by
  unfold printed
  split
  . rfl
  . rfl

@[simp]
theorem shown_printed (json : Json F) : (printed json).filterMap Call.shown = [] := by
  unfold printed
  split
  . rfl
  . rfl

theorem calls_traceOf (s : State) (origin : Nat)
    : calls origin (s.traceOf origin) = calls origin s.trace :=
  calls_owned origin s.trace

theorem txGets_traceOf (s : State) (origin : Nat)
    : txGets origin (s.traceOf origin) = txGets origin s.trace := by
  unfold txGets
  rw [calls_traceOf]

theorem responds_traceOf (s : State) (origin : Nat)
    : responds origin (s.traceOf origin) = responds origin s.trace := by
  unfold responds
  rw [calls_traceOf]

theorem updates_traceOf (s : State) (origin : Nat)
    : updates origin (s.traceOf origin) = updates origin s.trace := by
  unfold updates
  rw [calls_traceOf]

end LedgerApp
