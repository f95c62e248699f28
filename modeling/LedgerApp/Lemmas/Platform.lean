import LedgerApp.Lemmas.Machine

/-!
What every `start` reads in its handle and from its dispatcher comes from what the platform gave to
`create_api`, so a property of what is given there holds of every `start`.
-/

namespace LedgerApp

variable {F : Json11.Double} {P : Option HttpImpl → ThreadDispatcher → Prop} {s s' : State}

structure HttpOf (P : Option HttpImpl → ThreadDispatcher → Prop) (http : Http)
    (threadDispatcher : ThreadDispatcher) : Prop where
  given : P http.impl threadDispatcher
  context : ∃ now,
    http.context = threadDispatcher.getSerialExecutionContext now mainExecutionContext

structure Lib.Built (P : Option HttpImpl → ThreadDispatcher → Prop) (lib : Lib) : Prop where
  apis : ∀ api ∈ lib.apis, HttpOf P api.http api.threadDispatcher
  handles : ∀ handle ∈ lib.handles, HttpOf P handle.http handle.threadDispatcher

def Start.Built (P : Option HttpImpl → ThreadDispatcher → Prop) (start : Start) : Prop :=
  ∃ threadDispatcher now, HttpOf P start.http threadDispatcher
    ∧ start.mainContext
        = threadDispatcher.getSerialExecutionContext now mainExecutionContext
    ∧ start.backContext
        = threadDispatcher.getSerialExecutionContext now backExecutionContext

structure Built (P : Option HttpImpl → ThreadDispatcher → Prop) (s : State) : Prop where
  lib : s.lib.Built P
  starts : ∀ origin start, .started origin start ∈ s.trace → start.Built P

def Gives (P : Option HttpImpl → ThreadDispatcher → Prop) (_ : State) : Action → Prop
  | .createApi httpImpl threadDispatcher => P httpImpl threadDispatcher
  | _ => True

theorem Lib.Built.createApi {lib : Lib} {httpImpl : Option HttpImpl}
    {threadDispatcher : ThreadDispatcher} (h : lib.Built P) (hgiven : P httpImpl threadDispatcher)
    : (lib.createApi httpImpl threadDispatcher).Built P where
  apis := by
    intro api hapi
    simp only [Lib.createApi, List.mem_append, List.mem_singleton] at hapi
    rcases hapi with hapi | rfl
    . exact h.apis api hapi
    . exact ⟨hgiven, lib.now, rfl⟩
  handles := h.handles

theorem Lib.Built.observerTransactionList {lib lib' : Lib} {api : Nat} (h : lib.Built P)
    (hlib : lib.observerTransactionList api = some lib') : lib'.Built P := by
  unfold Lib.observerTransactionList at hlib
  split at hlib
  . next found hfound =>
    simp only [Option.some.injEq] at hlib
    rw [← hlib]
    refine ⟨h.apis, ?_⟩
    intro handle hhandle
    rw [List.mem_append, List.mem_singleton] at hhandle
    rcases hhandle with hhandle | rfl
    . exact h.handles handle hhandle
    . exact h.apis found (List.mem_of_getElem? hfound)
  . contradiction

theorem Lib.Built.start {lib lib' : Lib} {handle : HandleRef} {observer : Observer}
    {addresses : List Str} {options : ApiOptions} {response : HandleResponse} {start : Start}
    {calls : List Call} (h : lib.Built P)
    (hstart : lib.start handle observer addresses options response = some (lib', start, calls))
    : lib'.Built P ∧ start.Built P := by
  unfold Lib.start at hstart
  split at hstart
  . next found hfound =>
    simp only [Option.some.injEq, Prod.mk.injEq] at hstart
    have hhttp := h.handles found (List.mem_of_getElem? hfound)
    rw [← hstart.1, ← hstart.2.1]
    refine ⟨⟨h.apis, ?_⟩, found.threadDispatcher, lib.now, hhttp, rfl, rfl⟩
    intro other hother
    rcases List.mem_or_eq_of_mem_set hother with hother | rfl
    . exact h.handles other hother
    . exact hhttp
  . contradiction

theorem built_of_reachable {ok : State → Action → Prop} (h : (machine F).Reachable ok s)
    (hok : ∀ s action, ok s action → Gives P s action) : Built P s := by
  apply h.invariant
  . refine ⟨⟨?_, ?_⟩, ?_⟩
    . simp [machine, State.init, World.init, Lib.init]
    . simp [machine, State.init, World.init, Lib.init]
    . simp [machine, State.init, World.init]
  . intro t action u _ ht hokt hstep
    change step F t action = some u at hstep
    have hsame : ∀ {origin event calls requests queue},
        Performed t u origin event calls requests queue → u.lib = t.lib →
        (∀ other start, event ≠ .started other start) → Built P u := by
      intro origin event calls requests queue hp hlib hevent
      refine ⟨by rw [hlib]; exact ht.lib, ?_⟩
      intro other start hstarted
      exact ht.starts other start (started_of_performed hp hevent hstarted)
    cases action with
    | createApi httpImpl threadDispatcher =>
      rw [step_createApi hstep]
      exact ⟨ht.lib.createApi (hok _ _ hokt), ht.starts⟩
    | observerTransactionList api =>
      rcases step_observerTransactionList hstep with ⟨lib, hlib, rfl⟩
      exact ⟨ht.lib.observerTransactionList hlib, ht.starts⟩
    | start handle observer addresses options response =>
      rcases step_start hstep with ⟨start, hstart, hp⟩
      have hbuilt := ht.lib.start hstart
      refine ⟨hbuilt.1, ?_⟩
      intro other start' hstarted
      rw [hp.trace, List.mem_append, List.mem_cons, List.mem_map] at hstarted
      rcases hstarted with hstarted | hstarted | ⟨call, _, hstarted⟩
      . exact ht.starts other start' hstarted
      . simp only [Event.started.injEq] at hstarted
        rw [hstarted.2]
        exact hbuilt.2
      . simp at hstarted
    | deliver index reply =>
      rcases step_deliver hstep with ⟨request, _, hlib, hp⟩
      exact hsame hp hlib (by simp)
    | run index =>
      rcases step_run hstep with ⟨runnable, _, hlib, hp⟩
      exact hsame hp hlib (by simp)
    | drop cell =>
      rcases step_drop hstep with ⟨_, rfl⟩
      exact ⟨ht.lib, ht.starts⟩

end LedgerApp
