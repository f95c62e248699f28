import LedgerApp.Bytes
import LedgerApp.Registry

/-!
The thread dispatcher of the Node interface. Its contexts are the properties of a plain object,
which inherits the properties of `Object.prototype` as well.
-/

namespace LedgerApp
namespace NJSThreadDispatcherImpl

open Bytes

-- UTF-16 code units
abbrev JSString := List UInt16

def units (s : String) : JSString :=
  (lit s).map UInt8.toUInt16

def objectPrototype : List JSString :=
  [units "constructor", units "__defineGetter__", units "__defineSetter__", units "hasOwnProperty",
    units "__lookupGetter__", units "__lookupSetter__", units "isPrototypeOf",
    units "propertyIsEnumerable", units "toString", units "valueOf", units "__proto__",
    units "toLocaleString"]

-- the contexts are those the dispatcher has made
inductive Value where
  | undefined
  | context (context : Nat)
  | inherited (property : JSString)
deriving DecidableEq, Repr

inductive JSError where
  | typeError
deriving DecidableEq, Repr

abbrev Contexts := Registry JSString

def property (contexts : Contexts) (name : JSString) : Value :=
  match contexts.find? name with
  | some context => .context context
  | none => if name ∈ objectPrototype then .inherited name else .undefined

-- a property that the object inherits is not undefined, so that none is assigned here
def getSerialExecutionContext (contexts : Contexts) (name : JSString)
    : Except JSError Value × Contexts :=
  match property contexts name with
  | .undefined => (.ok (.context contexts.names.length), contexts.insert name)
  | currentContext => (.ok currentContext, contexts)

-- the object has no such property
def getMainExecutionContext : Option (Contexts → JSString → Except JSError Value × Contexts) :=
  none

-- the second of two assignments; the first one, to `getSerialExecutionContext`, has no effect
def getThreadPoolExecutionContext (contexts : Contexts) (name : JSString)
    : Except JSError Value × Contexts :=
  match getMainExecutionContext with
  | some method => method contexts name
  | none => (.error .typeError, contexts)

inductive Call where
  | getSerialExecutionContext (name : JSString)
  | getThreadPoolExecutionContext (name : JSString)
deriving DecidableEq, Repr

def call (contexts : Contexts) : Call → Except JSError Value × Contexts
  | .getSerialExecutionContext name =>
    NJSThreadDispatcherImpl.getSerialExecutionContext contexts name
  | .getThreadPoolExecutionContext name =>
    NJSThreadDispatcherImpl.getThreadPoolExecutionContext contexts name

def answers (calls : List Call) : List (Call × Except JSError Value) :=
  Session.answers call Registry.empty calls

structure IsRegistry (calls : List Call) : Prop where
  made : ∀ call outcome, (call, outcome) ∈ answers calls →
    ∃ context, outcome = .ok (.context context)
  same : ∀ name name' value value',
    (.getSerialExecutionContext name, .ok value) ∈ answers calls →
      (.getSerialExecutionContext name', .ok value') ∈ answers calls →
        (value = value' ↔ name = name')

/-! ## What a call leaves behind -/

def Clean (contexts : Contexts) : Prop :=
  ∀ name ∈ contexts.names, name ∉ objectPrototype

variable {contexts later : Contexts} {calls : List Call} {name : JSString} {value : Value}

theorem property_undefined
    : property contexts name = .undefined ↔ name ∉ contexts.names ∧ name ∉ objectPrototype := by
  rw [property, ← Registry.find?_eq_none]
  split
  . next h => simp [h]
  . next h => simp [h]

theorem property_of_inherited (hclean : Clean contexts) (h : name ∈ objectPrototype)
    : property contexts name = .inherited name := by
  have hfind : contexts.find? name = none :=
    Registry.find?_eq_none.mpr fun hmem => hclean name hmem h
  simp only [property, hfind, if_pos h]

theorem property_eq_context {context : Nat}
    : property contexts name = .context context ↔ contexts.find? name = some context := by
  unfold property
  split
  . next h => simp [h]
  . next h =>
    split
    . simp [h]
    . simp [h]

theorem property_eq_inherited {inherited : JSString}
    (h : property contexts name = .inherited inherited)
    : name = inherited ∧ name ∈ objectPrototype := by
  unfold property at h
  split at h
  . contradiction
  . split at h
    . next hmem =>
      injection h with h
      exact ⟨h, hmem⟩
    . contradiction

theorem property_mono (hle : contexts ≤ later) (hclean : Clean later)
    (h : property contexts name = value) (hdef : value ≠ .undefined)
    : property later name = value := by
  cases value with
  | undefined => contradiction
  | context context =>
    rw [property_eq_context] at h ⊢
    exact Registry.find?_mono hle h
  | inherited inherited =>
    rcases property_eq_inherited h with ⟨rfl, hmem⟩
    exact property_of_inherited hclean hmem

theorem property_inj {name' : JSString} (h : property contexts name = value)
    (h' : property contexts name' = value) (hdef : value ≠ .undefined) : name = name' := by
  cases value with
  | undefined => contradiction
  | context context =>
    rw [property_eq_context] at h h'
    exact Registry.find?_inj h h'
  | inherited inherited =>
    rw [(property_eq_inherited h).1, (property_eq_inherited h').1]

theorem getSerialExecutionContext_eq (contexts : Contexts) (name : JSString)
    : ∃ value, (getSerialExecutionContext contexts name).1 = .ok value
        ∧ property (getSerialExecutionContext contexts name).2 name = value
        ∧ value ≠ .undefined := by
  unfold getSerialExecutionContext
  split
  . next h =>
    refine ⟨_, rfl, ?_, by simp⟩
    rw [property_eq_context]
    exact Registry.find?_insert (property_undefined.mp h).1
  . next h => exact ⟨_, rfl, rfl, h⟩

theorem le_call (contexts : Contexts) (c : Call) : contexts ≤ (call contexts c).2 := by
  cases c with
  | getSerialExecutionContext name =>
    rw [call, NJSThreadDispatcherImpl.getSerialExecutionContext]
    split
    . exact contexts.le_insert name
    . exact contexts.le_refl
  | getThreadPoolExecutionContext name => exact contexts.le_refl

theorem clean_call (hclean : Clean contexts) (c : Call) : Clean (call contexts c).2 := by
  cases c with
  | getSerialExecutionContext name =>
    rw [call, NJSThreadDispatcherImpl.getSerialExecutionContext]
    split
    . next h =>
      rw [property_undefined] at h
      intro other hother
      rw [Registry.names_insert h.1, List.mem_append, List.mem_singleton] at hother
      rcases hother with hother | rfl
      . exact hclean other hother
      . exact h.2
    . exact hclean
  | getThreadPoolExecutionContext name => exact hclean

/-! ## What a session shows -/

theorem le_after (contexts : Contexts) (calls : List Call)
    : contexts ≤ Session.after call contexts calls :=
  Session.after_le Registry.le_refl (fun _ _ _ => Registry.le_trans) le_call contexts calls

theorem clean_after (calls : List Call) : Clean (Session.after call Registry.empty calls) := by
  have hall : ∀ contexts, Clean contexts → Clean (Session.after call contexts calls) := by
    induction calls with
    | nil => exact fun _ hclean => hclean
    | cons c calls ih => exact fun contexts hclean => ih _ (clean_call hclean c)
  apply hall
  intro name hname
  simp [Registry.empty] at hname

theorem property_of_answer {outcome : Except JSError Value}
    (h : (.getSerialExecutionContext name, outcome) ∈ answers calls)
    : ∃ value, outcome = .ok value ∧ value ≠ .undefined
        ∧ property (Session.after call Registry.empty calls) name = value := by
  rcases Session.mem_answers h with ⟨earlier, remaining, heq, houtcome⟩
  rcases getSerialExecutionContext_eq (Session.after call Registry.empty earlier) name
    with ⟨value, hvalue, hproperty, hdef⟩
  refine ⟨value, ?_, hdef, ?_⟩
  . rw [← houtcome, ← hvalue]
    rfl
  . have hclean := clean_after calls
    rw [heq, Session.after_append] at hclean ⊢
    exact property_mono (le_after _ remaining) hclean hproperty hdef

theorem same_iff {name' : JSString} {value' : Value}
    (h : (.getSerialExecutionContext name, .ok value) ∈ answers calls)
    (h' : (.getSerialExecutionContext name', .ok value') ∈ answers calls)
    : value = value' ↔ name = name' := by
  rcases property_of_answer h with ⟨_, hvalue, hdef, hproperty⟩
  rcases property_of_answer h' with ⟨_, hvalue', _, hproperty'⟩
  rw [← Except.ok.inj hvalue] at hdef hproperty
  rw [← Except.ok.inj hvalue'] at hproperty'
  constructor
  . rintro rfl
    exact property_inj hproperty hproperty' hdef
  . rintro rfl
    rw [← hproperty, hproperty']

theorem exists_answer {c : Call} (h : c ∈ calls) : ∃ outcome, (c, outcome) ∈ answers calls := by
  rw [← Session.map_answers call Registry.empty calls, List.mem_map] at h
  rcases h with ⟨⟨c', outcome⟩, hmem, rfl⟩
  exact ⟨outcome, hmem⟩

theorem isRegistry_iff (calls : List Call)
    : IsRegistry calls ↔
        ∀ c ∈ calls, ∃ name, c = .getSerialExecutionContext name ∧ name ∉ objectPrototype := by
  constructor
  . intro h c hc
    rcases exists_answer hc with ⟨outcome, hanswer⟩
    rcases h.made c outcome hanswer with ⟨context, rfl⟩
    cases c with
    | getSerialExecutionContext name =>
      refine ⟨name, rfl, ?_⟩
      intro hinherited
      rcases property_of_answer hanswer with ⟨value, hvalue, _, hproperty⟩
      rw [← Except.ok.inj hvalue, property_of_inherited (clean_after calls) hinherited]
        at hproperty
      contradiction
    | getThreadPoolExecutionContext name =>
      rcases Session.mem_answers hanswer with ⟨_, _, _, houtcome⟩
      contradiction
  . intro h
    refine ⟨?_, fun _ _ _ _ => same_iff⟩
    intro c outcome hanswer
    have hmem : c ∈ calls := by
      rw [← Session.map_answers call Registry.empty calls]
      exact List.mem_map.mpr ⟨_, hanswer, rfl⟩
    rcases h c hmem with ⟨name, rfl, hinherited⟩
    rcases property_of_answer hanswer with ⟨value, rfl, hdef, hproperty⟩
    cases value with
    | undefined => contradiction
    | context context => exact ⟨context, rfl⟩
    | inherited inherited => exact absurd (property_eq_inherited hproperty).2 hinherited

theorem not_isRegistry_toString
    : ¬IsRegistry [.getSerialExecutionContext (units "toString")] := by
  intro h
  rcases h.made (.getSerialExecutionContext (units "toString"))
    (.ok (.inherited (units "toString"))) (by decide) with ⟨context, hcontext⟩
  simp at hcontext

end NJSThreadDispatcherImpl
end LedgerApp
