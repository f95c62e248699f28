import LedgerApp.Client
import LedgerApp.Registry

/-!
The thread dispatcher of the iOS interface. Its main context is the first of all values of a
dictionary, and the order in which a dictionary lists its values is not specified.
-/

namespace LedgerApp
namespace LGThreadDispatcherObjc

-- UTF-16 code units
abbrev NSString := List UInt16

abbrev Contexts := Registry NSString

def mainName : NSString :=
  mainExecutionContext.map UInt8.toUInt16

-- `allValues`, in an order that may change with each insertion
structure Enumeration where
  allValues : Contexts → List Nat
  perm : ∀ contexts, (allValues contexts).Perm (List.range contexts.names.length)

def getMainExecutionContext (order : Enumeration) (contexts : Contexts) : Option Nat :=
  match order.allValues contexts with
  | value :: _ => some value
  | [] => none

def getSerialExecutionContext (contexts : Contexts) (name : NSString) : Option Nat × Contexts :=
  match contexts.find? name with
  | some context => (some context, contexts)
  | none => (some contexts.names.length, contexts.insert name)

def getThreadPoolExecutionContext (contexts : Contexts) (name : NSString)
    : Option Nat × Contexts :=
  getSerialExecutionContext contexts name

inductive Call where
  | getMainExecutionContext
  | getSerialExecutionContext (name : NSString)
  | getThreadPoolExecutionContext (name : NSString)
deriving DecidableEq, Repr

def call (order : Enumeration) (contexts : Contexts) : Call → Option Nat × Contexts
  | .getMainExecutionContext =>
    (LGThreadDispatcherObjc.getMainExecutionContext order contexts, contexts)
  | .getSerialExecutionContext name =>
    LGThreadDispatcherObjc.getSerialExecutionContext contexts name
  | .getThreadPoolExecutionContext name =>
    LGThreadDispatcherObjc.getThreadPoolExecutionContext contexts name

def Call.name? : Call → Option NSString
  | .getMainExecutionContext => none
  | .getSerialExecutionContext name => some name
  | .getThreadPoolExecutionContext name => some name

def answers (order : Enumeration) (calls : List Call) : List (Call × Option Nat) :=
  Session.answers (call order) Registry.empty calls

structure IsStable (order : Enumeration) (calls : List Call) : Prop where
  main : ∀ earlier later created context value,
    answers order calls = earlier ++ (.getMainExecutionContext, value) :: later →
      (created, context) ∈ earlier → created.name? = some mainName →
        context ≠ none ∧ value = context
  same : ∀ c c' name name' context context', c.name? = some name → c'.name? = some name' →
    (c, context) ∈ answers order calls → (c', context') ∈ answers order calls →
      (context = context' ↔ name = name')

-- no other name was used before the main context is asked for
def MainAlone (calls : List Call) : Prop :=
  ∀ earlier later, calls = earlier ++ .getMainExecutionContext :: later →
    (∃ created ∈ earlier, created.name? = some mainName) →
      ∀ c ∈ earlier, ∀ name, c.name? = some name → name = mainName

/-! ## What a call leaves behind -/

variable {order : Enumeration} {contexts : Contexts} {calls : List Call} {c : Call}
variable {name : NSString}

theorem call_of_name (contexts : Contexts) (h : c.name? = some name)
    : call order contexts c = getSerialExecutionContext contexts name := by
  cases c with
  | getMainExecutionContext => contradiction
  | getSerialExecutionContext other =>
    rw [← Option.some.inj h]
    rfl
  | getThreadPoolExecutionContext other =>
    rw [← Option.some.inj h]
    rfl

theorem call_of_no_name (contexts : Contexts) (h : c.name? = none)
    : (call order contexts c).2 = contexts := by
  cases c with
  | getMainExecutionContext => rfl
  | getSerialExecutionContext other => contradiction
  | getThreadPoolExecutionContext other => contradiction

theorem getSerialExecutionContext_eq (contexts : Contexts) (name : NSString)
    : ∃ context, (getSerialExecutionContext contexts name).1 = some context
        ∧ (getSerialExecutionContext contexts name).2.find? name = some context := by
  unfold getSerialExecutionContext
  split
  . next context h => exact ⟨context, rfl, h⟩
  . next h => exact ⟨_, rfl, Registry.find?_insert (Registry.find?_eq_none.mp h)⟩

theorem mem_getSerialExecutionContext {other : NSString}
    : other ∈ (getSerialExecutionContext contexts name).2.names ↔
        other ∈ contexts.names ∨ other = name := by
  unfold getSerialExecutionContext
  split
  . next context h =>
    have hmem := (Registry.find?_eq_some.mp h).1
    constructor
    . exact Or.inl
    . rintro (hother | rfl)
      . exact hother
      . exact hmem
  . next h =>
    rw [Registry.names_insert (Registry.find?_eq_none.mp h), List.mem_append, List.mem_singleton]

theorem le_call (contexts : Contexts) (c : Call) : contexts ≤ (call order contexts c).2 := by
  cases h : c.name? with
  | none =>
    rw [call_of_no_name contexts h]
    exact contexts.le_refl
  | some name =>
    rw [call_of_name contexts h, getSerialExecutionContext]
    split
    . exact contexts.le_refl
    . exact contexts.le_insert name

/-! ## What a session shows -/

theorem le_after (order : Enumeration) (contexts : Contexts) (calls : List Call)
    : contexts ≤ Session.after (call order) contexts calls :=
  Session.after_le Registry.le_refl (fun _ _ _ => Registry.le_trans) le_call contexts calls

theorem mem_after
    : name ∈ (Session.after (call order) contexts calls).names ↔
        name ∈ contexts.names ∨ ∃ c ∈ calls, c.name? = some name := by
  induction calls generalizing contexts with
  | nil => simp [Session.after]
  | cons c calls ih =>
    rw [Session.after, ih]
    cases h : c.name? with
    | none => simp [call_of_no_name contexts h, h]
    | some other =>
      rw [call_of_name contexts h, mem_getSerialExecutionContext, or_assoc]
      simp [h, eq_comm]

theorem find?_of_answer {context : Option Nat} (hname : c.name? = some name)
    (h : (c, context) ∈ answers order calls)
    : ∃ object, context = some object
        ∧ (Session.after (call order) Registry.empty calls).find? name = some object := by
  rcases Session.mem_answers h with ⟨earlier, later, heq, hcontext⟩
  rcases getSerialExecutionContext_eq (Session.after (call order) Registry.empty earlier) name
    with ⟨object, hobject, hfind⟩
  rw [call_of_name _ hname, hobject] at hcontext
  refine ⟨object, hcontext.symm, ?_⟩
  rw [heq, Session.after_append, Session.after, call_of_name _ hname]
  exact Registry.find?_mono (le_after order _ later) hfind

theorem same_iff {c' : Call} {name' : NSString} {context context' : Option Nat}
    (hname : c.name? = some name) (hname' : c'.name? = some name')
    (h : (c, context) ∈ answers order calls) (h' : (c', context') ∈ answers order calls)
    : context = context' ↔ name = name' := by
  rcases find?_of_answer hname h with ⟨object, rfl, hfind⟩
  rcases find?_of_answer hname' h' with ⟨object', rfl, hfind'⟩
  rw [Option.some.injEq]
  constructor
  . rintro rfl
    exact Registry.find?_inj hfind hfind'
  . rintro rfl
    rw [hfind, Option.some.injEq] at hfind'
    exact hfind'

/-! ## The main context -/

def preferring (context : Nat) : Enumeration where
  allValues contexts :=
    if context < contexts.names.length then
      context :: (List.range contexts.names.length).erase context
    else
      List.range contexts.names.length
  perm contexts := by
    split
    . next h => exact (List.perm_cons_erase (List.mem_range.mpr h)).symm
    . exact List.Perm.refl _

theorem getMainExecutionContext_preferring {context : Nat} (h : context < contexts.names.length)
    : getMainExecutionContext (preferring context) contexts = some context := by
  simp only [getMainExecutionContext, preferring, if_pos h]

theorem getMainExecutionContext_alone (order : Enumeration)
    (h : ∀ name ∈ contexts.names, name = mainName) (hmem : mainName ∈ contexts.names)
    : getMainExecutionContext order contexts = contexts.find? mainName := by
  have hnames : contexts.names = [mainName] := by
    have hreplicate := List.eq_replicate_iff.mpr ⟨rfl, h⟩
    have hnodup := contexts.nodup
    rw [hreplicate, List.nodup_replicate] at hnodup
    have hpos := List.length_pos_of_mem hmem
    have hone : contexts.names.length = 1 := by omega
    rw [hreplicate, hone]
    rfl
  have hperm := order.perm contexts
  rw [hnames, List.length_singleton, List.range_one, List.perm_singleton] at hperm
  rw [getMainExecutionContext, hperm, eq_comm, Registry.find?_eq_some, hnames]
  simp

theorem after_order (order order' : Enumeration) (contexts : Contexts) (calls : List Call)
    : Session.after (call order) contexts calls = Session.after (call order') contexts calls := by
  induction calls generalizing contexts with
  | nil => rfl
  | cons c calls ih =>
    have hcall : (call order contexts c).2 = (call order' contexts c).2 := by
      cases c with
      | _ => rfl
    rw [Session.after, Session.after, hcall, ih]

theorem isStable_of_mainAlone (h : MainAlone calls) (order : Enumeration)
    : IsStable order calls := by
  refine ⟨?_, fun _ _ _ _ _ _ => same_iff⟩
  intro earlier later created context value heq hcreated hname
  rcases Session.answers_eq_append heq with ⟨before, remaining, hcalls, rfl, hvalue⟩
  rcases find?_of_answer hname hcreated with ⟨object, rfl, hfind⟩
  have hmem : created ∈ before := by
    rw [← Session.map_answers (call order) Registry.empty before]
    exact List.mem_map.mpr ⟨_, hcreated, rfl⟩
  have honly := h before remaining hcalls ⟨created, hmem, hname⟩
  refine ⟨by simp, ?_⟩
  rw [← hvalue, call, ← hfind]
  apply getMainExecutionContext_alone
  . intro name hother
    rcases mem_after.mp hother with hother | ⟨c, hc, hcname⟩
    . simp [Registry.empty] at hother
    . exact honly c hc name hcname
  . exact mem_after.mpr (.inr ⟨created, hmem, hname⟩)

theorem mainAlone_of_isStable (h : ∀ order, IsStable order calls) : MainAlone calls := by
  rintro earlier later heq ⟨created, hcreated, hmain⟩ c hc name hname
  generalize hafter : Session.after (call (preferring 0)) Registry.empty earlier = contexts
  have hmem : name ∈ contexts.names := by
    rw [← hafter]
    exact mem_after.mpr (.inr ⟨c, hc, hname⟩)
  rcases Registry.exists_find? hmem with ⟨other, hfind⟩
  have hcontexts : Session.after (call (preferring other)) Registry.empty earlier = contexts := by
    rw [after_order _ (preferring 0), hafter]
  rw [← Session.map_answers (call (preferring other)) Registry.empty earlier,
    List.mem_map] at hcreated
  rcases hcreated with ⟨⟨created', context⟩, hanswer, rfl⟩
  have hvalue := (h (preferring other)).main _ _ _ context _ (by
    rw [answers, heq, Session.answers_append, Session.answers, hcontexts]) hanswer hmain
  rcases find?_of_answer hmain hanswer with ⟨object, rfl, hobject⟩
  rw [call, getMainExecutionContext_preferring (Registry.lt_of_find? hfind),
    Option.some.injEq] at hvalue
  rw [hcontexts, ← hvalue.2] at hobject
  exact Registry.find?_inj hfind hobject

theorem isStable_iff (calls : List Call) : (∀ order, IsStable order calls) ↔ MainAlone calls :=
  ⟨mainAlone_of_isStable, isStable_of_mainAlone⟩

def twoNames : List Call :=
  [.getSerialExecutionContext mainName,
    .getSerialExecutionContext (backExecutionContext.map UInt8.toUInt16), .getMainExecutionContext]

theorem not_isStable_twoNames : ¬IsStable (preferring 1) twoNames := by
  intro h
  have hmain := (h.main (answers (preferring 1) twoNames).dropLast []
    (.getSerialExecutionContext mainName) (some 0) (some 1) (by decide) (by decide) rfl).2
  contradiction

end LGThreadDispatcherObjc
end LedgerApp
