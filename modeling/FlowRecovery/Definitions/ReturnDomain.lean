import FlowRecovery.Definitions

/-!
# `FlowRecovery.Definitions.ReturnDomain`: where the return address is

To recognise a return one has to know which values are the address that
the function was called with. It starts out in a register or in memory
slots named in advance, and survives loads from a slot, clearing of its
low two bits, and primitives that the machine knows to pass it on. A
slot is forgotten once anything else is stored to it. As with linear
forms, the walk gives up at a depth that only a cycle of definitions
needs.

Whether a branch can go both ways is the other question that
classification asks. `Feasibility.ofCondition` answers it from the
condition alone.
-/

set_option autoImplicit false

namespace FlowRecovery

/-- What is known of a value. -/
inductive AbsValue where
  /-- It is the address to return to. -/
  | returnAddr
  | other
deriving DecidableEq, Repr

/-- Which arms of a branch can be taken. -/
inductive Feasibility where
  | both
  | trueOnly
  | falseOnly
  | neither
deriving DecidableEq, Repr

namespace Feasibility

/-- The name of the answer, as it stands in messages. -/
def name : Feasibility → String
  | .both => "Both"
  | .trueOnly => "TrueOnly"
  | .falseOnly => "FalseOnly"
  | .neither => "Neither"

/-- A literal decides; any other condition may go either way. -/
def ofCondition : Value → Feasibility
  | .bool true => .trueOnly
  | .bool false => .falseOnly
  | _ => .both

end Feasibility

/-- A place in memory at a distance from a register's entry value. -/
structure StackSlot where
  base : Reg
  offset : Int
deriving DecidableEq, Repr

/-- What a machine primitive makes of its arguments; `none` if the
machine does not say. -/
abbrev PrimEval := Prim → List AbsValue → Option AbsValue

/-- Where the return address is known to be. -/
structure ReturnDomain where
  defs : Definitions
  /-- The memory slots that hold it. -/
  slots : List Linear
  primEval : Option PrimEval

namespace ReturnDomain

/-- Does `addr` name a slot that holds the return address? -/
def isReturnSlot (dom : ReturnDomain) (addr : Value) : Bool :=
  (dom.defs.linear addr).any dom.slots.contains

/-- Is `v` a literal mask that clears at most the low two bits? -/
def clearsLowBits : Value → Bool
  | .bv width w => decide (Word.keepLow width (~~~w) ≤ 3)
  | _ => false

/-- What is known of `v`, given what is known of the operands of its
definition. -/
def transferVia (dom : ReturnDomain) (operand : Value → AbsValue) (v : Value) : AbsValue :=
  match v with
  | .returnAddr _ => .returnAddr
  | .assign .. =>
    match dom.defs.rhs? v with
    | some (.load addr _) => if dom.isReturnSlot addr then .returnAddr else .other
    | some (.app (.binary .and left right)) =>
      if clearsLowBits right && operand left == .returnAddr
          || clearsLowBits left && operand right == .returnAddr then
        .returnAddr
      else .other
    | some (.prim p) =>
      match dom.primEval with
      | some eval => (eval p (p.args.map operand)).getD .other
      | none => .other
    | _ => .other
  | _ => .other

/-- What is known of `v`, following assignments through `depth` more
after its own. -/
def transferUpTo (dom : ReturnDomain) : Nat → Value → AbsValue
  | 0 => dom.transferVia fun _ => .other
  | depth + 1 => dom.transferVia (dom.transferUpTo depth)

/-- What is known of `v`. -/
def transfer (dom : ReturnDomain) (v : Value) : AbsValue :=
  dom.transferUpTo dom.defs.assigned.length v

/-- The effect of one store: a slot stays only if it now holds the
return address. -/
def store (dom : ReturnDomain) (addr value : Value) : ReturnDomain :=
  match dom.defs.linear addr with
  | some slot =>
    if dom.transfer value = .returnAddr then dom
    else { dom with slots := dom.slots.filter (· ≠ slot) }
  | none => dom

/-- The slots that a machine names at function entry. -/
def seedSlots (seeds : List StackSlot) (addrWidth : Nat) : List Linear :=
  seeds.map fun s =>
    { base := some s.base, offset := Word.keepLow addrWidth (Word.ofSigned s.offset) }

/-- The domain after all recorded stores. -/
def ofSeeds (defs : Definitions) (seeds : List StackSlot) (addrWidth : Nat)
    (primEval : Option PrimEval) : ReturnDomain :=
  defs.stores.foldl (fun dom s => dom.store s.1 s.2)
    { defs, slots := seedSlots seeds addrWidth, primEval }

end ReturnDomain

end FlowRecovery
