import NekoProto.Lib.OrderedMap
import Mathlib.Data.String.Basic
import Mathlib.Logic.Function.Basic
import Mathlib.Algebra.Order.Ring.Int

/-!
# The protocol factory

`proto_base.cpp`, and what `proto_base.hpp` declares for a protocol. What is static in the source
is shared by all factories (`Statics`): the functions that a new factory runs, in the order of
their names, the types of the names, and the counter of the types that are assigned. The static
initializer of a protocol enters its type, where it specifies one, and its function; a factory
runs all functions, each of which registers its name.

A creator stands for the object that it builds. The counter of the source is an `int`, that of the
model an integer: a program that numbers fewer than `2 ^ 31 - 65` names does not see the
difference.

The map of the types keeps the views of the names that it is given. Those of protocols and of
`specifyProtoType` are constants, that of `regist` views a buffer of the caller (`Program.buffers`).
-/

namespace NekoProto.Proto

variable {Creator : Type}

/-- Why an operation does not return. -/
inductive Stop
  /-- `mCreaterList` is indexed outside its bounds. -/
  | outOfBounds
  /-- A condition of `NEKO_ASSERT` does not hold, in a build that checks it. -/
  | aborted
  /-- The characters of a key of `kProtoNameMap` are changed, which a `std::map` does not allow:
  what it finds from then on is not defined. -/
  | keyChanged
  deriving DecidableEq, Repr

/-- `NEKO_RESERVED_PROTO_TYPE_SIZE`. -/
def reservedProtoTypeSize : ℤ := 64

/-! ## Types -/

/-- The static variables: `kFuncs`, `kProtoNameMap` and `kCounter`. -/
structure Statics (Creator : Type) where
  funcs : OrderedMap String Creator := .empty
  protoNameMap : OrderedMap String ℤ := .empty
  counter : ℤ := reservedProtoTypeSize

/-- `_protoType`. -/
def protoType (name : String) (isDeclared : Bool) (specifyType : ℤ) (s : Statics Creator) :
    ℤ × Statics Creator :=
  if name = "" then (-1, s)
  else
    match s.protoNameMap.find name with
    | some type => (type, s)
    | none =>
      if specifyType ≠ -1 ∧ isDeclared then
        if s.protoNameMap.entries.any fun item => item.2 = specifyType then (-1, s)
        else if reservedProtoTypeSize < specifyType then (-1, s)
        else (specifyType, { s with protoNameMap := s.protoNameMap.insert name specifyType })
      else if isDeclared then
        (s.counter + 1, { s with
          protoNameMap := s.protoNameMap.insert name (s.counter + 1)
          counter := s.counter + 1 })
      else (-1, s)

/-- `specifyProtoType`, for a protocol of this name. -/
def specifyProtoType (name : String) (type : ℤ) (s : Statics Creator) : ℤ × Statics Creator :=
  protoType name true type s

/-- `static_init_funcs`, with a function that registers the name with a creator. -/
def staticInitFuncs (name : String) (creator : Creator) (s : Statics Creator) : Statics Creator :=
  if name ≠ "" ∧ s.funcs.find name = none then
    { s with funcs := s.funcs.insert name creator }
  else s

/-- A protocol that is declared with `NEKO_DECLARE_PROTOCOL`: the name of its class, what its
`specifyType` returns where it has one, and its creator. -/
structure Declaration (Creator : Type) where
  name : String
  specifyType : Option ℤ := none
  creator : Creator
  name_ne : name ≠ "" := by decide

/-- `declared_specify_type::declared`. The name of the protocol is not initialized yet, so
`protoName` gives the name of the class. -/
def declared (checked : Bool) (d : Declaration Creator) (s : Statics Creator) :
    Except Stop (Statics Creator) :=
  match d.specifyType with
  | none => .ok s
  | some type =>
    let (ret, s) := specifyProtoType d.name type s
    if checked ∧ ret = -1 then .error .aborted else .ok s

/-- The initializer of `gProtoName`. -/
def staticInit (checked : Bool) (d : Declaration Creator) (s : Statics Creator) :
    Except Stop (Statics Creator) := do
  let s ← declared checked d s
  pure (staticInitFuncs d.name d.creator s)

/-! ## Factories -/

/-- `ProtoFactory`. -/
structure ProtoFactory (Creator : Type) where
  createrList : List (Option Creator)
  dynamicCreaterMap : List (ℤ × Creator) := []

/-- `regist`. -/
def regist (name : String) (creator : Creator) (s : Statics Creator) (f : ProtoFactory Creator) :
    Except Stop (Statics Creator × ProtoFactory Creator) :=
  let (type, s) := protoType name true (-1) s
  if type < f.createrList.length then
    if 0 ≤ type then
      .ok (s, { f with createrList := f.createrList.set type.toNat (some creator) })
    else .error .outOfBounds
  else
    match f.dynamicCreaterMap.lookup type with
    | some _ => .ok (s, f)
    | none => .ok (s, { f with dynamicCreaterMap := (type, creator) :: f.dynamicCreaterMap })

/-- The loop of `_init` over the functions. -/
def runFuncs : List (String × Creator) → Statics Creator → ProtoFactory Creator →
    Except Stop (Statics Creator × ProtoFactory Creator)
  | [], s, f => .ok (s, f)
  | (name, creator) :: funcs, s, f => do
    let (s, f) ← regist name creator s f
    runFuncs funcs s f

/-- `_init`, of a new factory. -/
def init (s : Statics Creator) : Except Stop (Statics Creator × ProtoFactory Creator) :=
  runFuncs s.funcs.entries s
    { createrList := List.replicate (s.funcs.size + reservedProtoTypeSize.toNat + 1) none }

/-- `create`, of a type: the creator that builds the object, or none for an empty `IProto`. -/
def createType (type : ℤ) (f : ProtoFactory Creator) : Option Creator :=
  if 0 < type ∧ type < f.createrList.length ∧ f.createrList[type.toNat]?.join.isSome then
    f.createrList[type.toNat]?.join
  else if f.createrList.length ≤ type then f.dynamicCreaterMap.lookup type
  else none

/-- `create`, of a name. -/
def createName (name : String) (s : Statics Creator) (f : ProtoFactory Creator) : Option Creator :=
  createType (protoType name false (-1) s).1 f

/-! ## Programs -/

/-- The static variables and the factories, in the order in which they were constructed. The
callers of `regist` have the characters of the names in `buffers`, and `keys` are those of which
`kProtoNameMap` keeps a view. -/
structure Program (Creator : Type) where
  statics : Statics Creator := {}
  factories : List (ProtoFactory Creator) := []
  buffers : ℕ → String := fun _ => ""
  keys : List ℕ := []

/-- The operations that change something. -/
inductive Event (Creator : Type)
  /-- The static initializer of a protocol runs. -/
  | staticInit (declaration : Declaration Creator)
  /-- A factory is constructed. -/
  | construct
  | specifyProtoType (name : String) (type : ℤ)
  /-- `regist` of a factory, with a view of a buffer. -/
  | regist (factory buffer : ℕ) (creator : Creator)
  /-- The caller writes a name into a buffer. -/
  | write (buffer : ℕ) (name : String)

/-- The keys after `_protoType` of a declared name in a buffer: a new name is entered. -/
def Program.keysWith (p : Program Creator) (buffer : ℕ) : List ℕ :=
  if p.buffers buffer ≠ "" ∧ p.statics.protoNameMap.find (p.buffers buffer) = none then
    buffer :: p.keys
  else p.keys

/-- The operation on a program. -/
def step (checked : Bool) (p : Program Creator) : Event Creator → Except Stop (Program Creator)
  | .staticInit declaration => do
    let statics ← staticInit checked declaration p.statics
    pure { p with statics := statics }
  | .construct => do
    let (statics, factory) ← init p.statics
    pure { p with statics := statics, factories := p.factories ++ [factory] }
  | .specifyProtoType name type =>
    pure { p with statics := (specifyProtoType name type p.statics).2 }
  | .regist index buffer creator =>
    match p.factories[index]? with
    | none => pure p
    | some factory => do
      let (statics, factory) ← regist (p.buffers buffer) creator p.statics factory
      pure { p with
        statics := statics
        factories := p.factories.set index factory
        keys := p.keysWith buffer }
  | .write buffer name =>
    if buffer ∈ p.keys ∧ name ≠ p.buffers buffer then .error .keyChanged
    else pure { p with buffers := Function.update p.buffers buffer name }

/-- The operations, one after the other. -/
def run (checked : Bool) : Program Creator → List (Event Creator) → Except Stop (Program Creator)
  | p, [] => .ok p
  | p, event :: events => do
    let p ← step checked p event
    run checked p events

/-- A state that a program comes to. -/
def Reachable (checked : Bool) (p : Program Creator) : Prop :=
  ∃ events, run checked {} events = .ok p

end NekoProto.Proto
