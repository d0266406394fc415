import PartitionedFilters.Parameter
import PartitionedFilters.Lifecycle

/-!
# `FilterPointer`

A pointer to a filter of any class, with the four type-erased functions that
the factory of the class binds. What happens to the instances is logged.
-/

namespace PartitionedFilters

variable {r : RegisterSize} {Obj : Type}

inductive FilterType where
  | Bloom
  | Xor
  | Cuckoo
  | FastfilterBloom
  | FastfilterXor
  | ImpalaBloom
  | BSDBloom
  | BSDCuckoo
  | EfficientCuckooFilter
  | AMDMortonFilter
  | VacuumFilter
  deriving DecidableEq, Repr

/-- The class `F` of filters that `FilterFactory<type, OP>::bind<k>` instantiates. -/
structure FilterClass where
  type : FilterType
  k : Nat
  deriving DecidableEq, Repr

/-- The members of the filter classes that the bound functions call. It is assumed that whether a
constructor throws depends on the class and on `s` only, and that the other members do not throw. -/
structure Filters (r : RegisterSize) (Obj : Type) where
  /-- `new F(s, 0, 0, 0)`; `none` where it throws. -/
  new : FilterClass → Nat → Option Obj
  init : FilterClass → Obj → r.T → Obj
  addAll : FilterClass → Obj → List r.T → Bool × Obj
  contains : FilterClass → Obj → r.T → Bool

inductive Exception where
  | runtimeError (what : String)
  | badFunctionCall
  | constructor
  | nullPointer
  deriving DecidableEq, Repr

/-- `instance` is the number of the instance pointed to, if any. -/
structure FilterPointer where
  instance? : Option Nat := none
  iCtor : Option FilterClass := none
  iDtor : Option FilterClass := none
  iAddAll : Option FilterClass := none
  iContains : Option FilterClass := none
  deriving DecidableEq, Repr

/-- With every instance ever constructed at its number, dead ones as they were left. -/
structure World (Obj : Type) where
  pointer : FilterPointer := {}
  heap : List Obj := []
  events : List (Lifecycle.Event FilterClass) := []

abbrev Procedure (Obj α : Type) := EStateM Exception (World Obj) α

/-- The world after an action, which the caller goes on with also when it throws. -/
def Procedure.after {α : Type} (x : Procedure Obj α) (w : World Obj) : World Obj :=
  match x w with
  | .ok _ w' => w'
  | .error _ w' => w'

namespace FilterPointer

def log (e : Lifecycle.Event FilterClass) : Procedure Obj Unit :=
  modify fun w => { w with events := w.events ++ [e] }

/-- The call of a `std::function`. -/
def call (f : Option FilterClass) : Procedure Obj FilterClass :=
  match f with
  | some F => pure F
  | none => throw .badFunctionCall

/-- Dereferencing `instance`. -/
def deref (w : World Obj) : Procedure Obj (Nat × Obj) :=
  match w.pointer.instance? with
  | none => throw .nullPointer
  | some i =>
    match w.heap[i]? with
    | none => throw .nullPointer
    | some o => pure (i, o)

/-- `FilterFactory<type, OP>` is specialised for three types; the general one throws. -/
def bind (F : FilterClass) : Procedure Obj Unit :=
  match F.type with
  | .Bloom | .Xor | .Cuckoo =>
    modify fun w => { w with pointer := { w.pointer with
      iCtor := some F, iDtor := some F, iAddAll := some F, iContains := some F } }
  | _ => throw (.runtimeError "not implemented!")

/-- `if (instance) i_dtor(instance);` -/
def destroy : Procedure Obj Unit := do
  let w ← get
  match w.pointer.instance? with
  | none => pure ()
  | some i =>
    let F ← call w.pointer.iDtor
    log (.released i F)

/-- `instance = i_ctor(s);` -/
def construct (C : Filters r Obj) (s : Nat) : Procedure Obj Unit := do
  let w ← get
  let F ← call w.pointer.iCtor
  match C.new F s with
  | none => throw .constructor
  | some o =>
    log (.acquired w.heap.length F)
    modify fun w => { w with pointer := { w.pointer with instance? := some w.heap.length }, heap := w.heap ++ [o] }

def create (C : Filters r Obj) (type : FilterType) (k s : Nat) : Procedure Obj Unit := do
  destroy
  if 1 ≤ k ∧ k ≤ 32 then bind { type, k } else throw (.runtimeError "k is not supported!")
  construct C s

def addAll (C : Filters r Obj) (values : List r.T) : Procedure Obj Bool := do
  let w ← get
  let F ← call w.pointer.iAddAll
  let (i, o) ← deref w
  let histogram : r.T := BitVec.ofNat r.bits values.length
  let (success, o') := C.addAll F (C.init F o histogram) values
  log (.used i F)
  modify fun w => { w with heap := w.heap.set i o' }
  return success

def contains (C : Filters r Obj) (value : r.T) : Procedure Obj Bool := do
  let w ← get
  let F ← call w.pointer.iContains
  let (i, o) ← deref w
  log (.used i F)
  return C.contains F o value

inductive Call (r : RegisterSize) where
  | create (type : FilterType) (k s : Nat)
  | addAll (values : List r.T)
  | contains (value : r.T)
  deriving DecidableEq

/-- One call, whose exception is caught. -/
def perform (C : Filters r Obj) (w : World Obj) : Call r → World Obj
  | .create type k s => (create C type k s).after w
  | .addAll values => (addAll C values).after w
  | .contains value => (contains C value).after w

/-- The life of a `FilterPointer`, up to and with its destructor. -/
def life (C : Filters r Obj) (calls : List (Call r)) : World Obj :=
  destroy.after (calls.foldl (perform C) {})

end FilterPointer

end PartitionedFilters
