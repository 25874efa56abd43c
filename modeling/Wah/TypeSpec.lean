/-
The type specification language of `wah_define_type` and `wah_export_func`.

Model:
- the parser works on the characters, as the source does; the arguments of `%T` are the integers of `wah_type_t`, taken
  from the front of a list. A failing alternative puts the cursor back, but not the arguments it took;
- memory for the lists of types is always there.

What the parser reads is in `TypeGrammar`, over the tokens of `TypeTokens`.
-/
import Wah.Types

namespace Wah

namespace TypeSpec

/-! ## Characters -/

def isWs (c : Char) : Bool := c = ' ' || c = '\n' || c = '\r' || c = '\t'

def isIdentChar (c : Char) : Bool :=
  ('a' ≤ c && c ≤ 'z') || ('A' ≤ c && c ≤ 'Z') || ('0' ≤ c && c ≤ '9') || c = '_'

def skipWs (cur : List Char) : List Char := cur.dropWhile isWs

/-- white space that was skipped before a failure is skipped again by what is tried next -/
def takeLit (lit : List Char) (cur : List Char) : Option (List Char) :=
  let cur := skipWs cur
  if lit <+: cur then some (cur.drop lit.length) else none

def takeKw (kw : String) (cur : List Char) : Option (List Char) :=
  let cur := skipWs cur
  let rest := cur.drop kw.toList.length
  if kw.toList <+: cur ∧ rest.head?.all (fun c => !isIdentChar c) = true then some rest else none

/-- the character after white space, if it is `c` -/
def takeChar (c : Char) (cur : List Char) : Option (List Char) :=
  match skipWs cur with
  | [] => none
  | d :: rest => if d = c then some rest else none

/-! ## Keywords -/

/-- `wah_type_spec_kw_t` -/
structure SpecKw where
  kw : String
  type : Ty
  packed : Bool
deriving DecidableEq, Repr

def nullRef (h : AbsHeap) : Ty := .ref true (.abs h)

def typeKws : List SpecKw :=
  [⟨"i32", .i32, false⟩, ⟨"i64", .i64, false⟩, ⟨"f32", .f32, false⟩, ⟨"f64", .f64, false⟩, ⟨"v128", .v128, false⟩,
    ⟨"i8", .packedI8, true⟩, ⟨"i16", .packedI16, true⟩, ⟨"funcref", nullRef .func, false⟩,
    ⟨"externref", nullRef .externRef, false⟩, ⟨"exnref", nullRef .exn, false⟩, ⟨"anyref", nullRef .any, false⟩,
    ⟨"eqref", nullRef .eq, false⟩, ⟨"i31ref", nullRef .i31, false⟩, ⟨"structref", nullRef .struct, false⟩,
    ⟨"arrayref", nullRef .array, false⟩, ⟨"nullref", nullRef .none, false⟩, ⟨"nullfuncref", nullRef .nofunc, false⟩,
    ⟨"nullexternref", nullRef .noexternRef, false⟩, ⟨"nullexnref", nullRef .noexn, false⟩]

def heapRef (h : AbsHeap) : Ty := .ref false (.abs h)

def heapKws : List SpecKw :=
  [⟨"func", heapRef .func, false⟩, ⟨"extern", heapRef .externRef, false⟩, ⟨"exn", heapRef .exn, false⟩,
    ⟨"any", heapRef .any, false⟩, ⟨"eq", heapRef .eq, false⟩, ⟨"i31", heapRef .i31, false⟩,
    ⟨"struct", heapRef .struct, false⟩, ⟨"array", heapRef .array, false⟩, ⟨"nofunc", heapRef .nofunc, false⟩,
    ⟨"noextern", heapRef .noexternRef, false⟩, ⟨"noexn", heapRef .noexn, false⟩]

/-- `wah_type_spec_take_kw_type` -/
def takeKwType : List SpecKw → Bool → List Char → Option (Ty × List Char)
  | [], _, _ => none
  | k :: kws, allowPacked, cur =>
    if k.packed && !allowPacked then takeKwType kws allowPacked cur
    else
      match takeKw k.kw cur with
      | some cur => some (k.type, cur)
      | none => takeKwType kws allowPacked cur

/-! ## The parser -/

/-- `typeCount` of the module, and whether `%T` is allowed -/
structure SpecEnv where
  typeCount : Nat
  placeholders : Bool

structure SpecState where
  cur : List Char
  args : List Int
deriving DecidableEq

/-- a parser, which changes the state also when it fails -/
abbrev SpecParser (α : Type) := SpecState → Option α × SpecState

/-- the built-in type of an argument: `wah_type_spec_is_known_builtin` -/
def knownBuiltin (t : Int) : Option Ty := ((typeKws ++ heapKws).map SpecKw.type).find? fun ty => ty.code = t

/-- the reference that a non-negative argument stands for -/
def indexType (t : Int) : Ty := .ref (decide (t % 2 = 1)) (.idx (t / 2).toNat)

/-- `wah_type_spec_check_typeidx` -/
def checkTypeIdx (E : SpecEnv) (t : Int) : Bool := decide ((t / 2).toNat < E.typeCount)

/-- an argument where a value type is expected -/
def valueArg (E : SpecEnv) (allowPacked : Bool) (t : Int) : Option Ty :=
  if t < 0 then
    match knownBuiltin t with
    | none => none
    | some ty =>
      if ty.isPacked && !allowPacked then none
      else if t ≤ -32 ∧ -54 ≤ t ∧ t % 2 = 0 then none
      else some ty
  else if checkTypeIdx E t then some (indexType t) else none

/-- an argument after `ref` -/
def heapArg (E : SpecEnv) (nullable : Bool) (t : Int) : Option Ty :=
  if t < 0 then
    match knownBuiltin t with
    | none => none
    | some ty => if t ≤ -32 ∧ -54 ≤ t ∧ t % 2 = 0 then some (if nullable then ty.asNullable else ty) else none
  else if checkTypeIdx E t then some (.ref nullable (.idx (t / 2).toNat)) else none

/-- `%T` has been taken: the next argument, which is taken whatever it is; one that is not there cannot be -/
def takeArg (E : SpecEnv) (accept : Int → Option Ty) : SpecParser Ty := fun st =>
  if E.placeholders then
    match st.args with
    | [] => (none, st)
    | t :: args => (accept t, { st with args })
  else (none, st)

def parsePlaceholder (E : SpecEnv) (allowPacked : Bool) : SpecParser Ty := fun st =>
  match takeLit ['%', 'T'] st.cur with
  | none => (none, st)
  | some cur => takeArg E (valueArg E allowPacked) { st with cur }

def parseNamedScalar (allowPacked : Bool) : SpecParser Ty := fun st =>
  match takeKwType typeKws allowPacked st.cur with
  | none => (none, st)
  | some (t, cur) => (some t, { st with cur })

def parseRefType (E : SpecEnv) : SpecParser Ty := fun st =>
  match takeKw "ref" st.cur with
  | none => (none, st)
  | some cur =>
    let nullable := (takeKw "null" cur).isSome
    let cur := (takeKw "null" cur).getD cur
    match takeLit ['%', 'T'] cur with
    | some cur => takeArg E (heapArg E nullable) { st with cur }
    | none =>
      match takeKwType heapKws false cur with
      | some (ht, cur) => (some (if nullable then ht.asNullable else ht), { st with cur })
      | none => (none, st)

/-- the alternatives in turn, from the same cursor -/
def parseType (E : SpecEnv) (allowPacked : Bool) : SpecParser Ty := fun st =>
  match parsePlaceholder E allowPacked st with
  | (some t, st) => (some t, st)
  | (none, st₁) =>
    match parseNamedScalar allowPacked { st₁ with cur := st.cur } with
    | (some t, st) => (some t, st)
    | (none, st₂) =>
      match parseRefType E { st₂ with cur := st.cur } with
      | (some t, st) => (some t, st)
      | (none, st₃) => (none, { st₃ with cur := st.cur })

/-- the loop of the lists: an item, and another one after a comma unless the list ends there. Every turn takes a
character, so that there are no more turns than characters -/
def parseItems {α : Type} (item : SpecParser α) (endc : Char) : Nat → SpecParser (List α)
  | 0, st => (none, st)
  | turns + 1, st =>
    match item st with
    | (none, st) => (none, st)
    | (some x, st) =>
      match takeChar ',' st.cur with
      | none => (some [x], st)
      | some cur =>
        if (takeChar endc cur).isSome then (some [x], { st with cur })
        else
          match parseItems item endc turns { st with cur } with
          | (none, st) => (none, st)
          | (some xs, st) => (some (x :: xs), st)

/-- `wah_type_spec_parse_types_until` -/
def parseTypesUntil (E : SpecEnv) (endc : Char) (allowPacked : Bool) : SpecParser (List Ty) := fun st =>
  if (takeChar endc st.cur).isSome then (some [], st)
  else parseItems (parseType E allowPacked) endc (st.cur.length + 1) st

/-- the closing character of a list that was read -/
def close {α : Type} (lit : List Char) : Option α × SpecState → Option α × SpecState
  | (none, st) => (none, st)
  | (some x, st) =>
    match takeLit lit st.cur with
    | none => (none, st)
    | some cur => (some x, { st with cur })

/-- the results of a function, which may be absent, a type, or a list -/
def parseResults (E : SpecEnv) : SpecParser (List Ty) := fun st =>
  match takeLit ['-', '>'] st.cur with
  | none => (some [], st)
  | some cur =>
    match takeLit ['('] cur with
    | some cur => close [')'] (parseTypesUntil E ')' false { st with cur })
    | none =>
      match parseType E false { st with cur } with
      | (none, st) => (none, st)
      | (some t, st) => (some [t], st)

/-- `wah_type_spec_parse_func` -/
def parseFunc (E : SpecEnv) (implicitFn : Bool) : SpecParser FuncType := fun st =>
  match (if implicitFn then some st.cur else takeKw "fn" st.cur) with
  | none => (none, st)
  | some cur =>
    match takeLit ['('] cur with
    | none => (none, st)
    | some cur =>
      match close [')'] (parseTypesUntil E ')' false { st with cur }) with
      | (none, st) => (none, st)
      | (some params, st) =>
        match parseResults E st with
        | (none, st) => (none, st)
        | (some results, st) => (some ⟨params, results⟩, st)

/-- a type with `mut` before it or not -/
def parseField (E : SpecEnv) : SpecParser (Ty × Bool) := fun st =>
  let isMutable := (takeKw "mut" st.cur).isSome
  match parseType E true { st with cur := (takeKw "mut" st.cur).getD st.cur } with
  | (none, st) => (none, st)
  | (some t, st) => (some (t, isMutable), st)

/-- `wah_type_spec_parse_struct` -/
def parseStruct (E : SpecEnv) : SpecParser (List (Ty × Bool)) := fun st =>
  match takeKw "struct" st.cur with
  | none => (none, st)
  | some cur =>
    match takeLit ['{'] cur with
    | none => (none, st)
    | some cur =>
      if (takeChar '}' cur).isSome then close ['}'] (some [], { st with cur })
      else close ['}'] (parseItems (parseField E) '}' (cur.length + 1) { st with cur })

/-- `wah_type_spec_parse_array` -/
def parseArray (E : SpecEnv) : SpecParser (Ty × Bool) := fun st =>
  match takeKw "array" st.cur with
  | none => (none, st)
  | some cur => parseField E { st with cur }

/-- a type that was specified -/
inductive SpecType where
  | func (type : FuncType)
  | struct (fields : List (Ty × Bool))
  | array (elem : Ty × Bool)
deriving DecidableEq, Repr

/-- the parsing of `wah_define_typev` after `fresh` -/
def parseDefined (E : SpecEnv) : SpecParser SpecType := fun st =>
  if (takeKw "fn" st.cur).isSome then
    match parseFunc E false st with
    | (none, st) => (none, st)
    | (some f, st) => (some (.func f), st)
  else if (takeKw "struct" st.cur).isSome then
    match parseStruct E st with
    | (none, st) => (none, st)
    | (some fs, st) => (some (.struct fs), st)
  else if (takeKw "array" st.cur).isSome then
    match parseArray E st with
    | (none, st) => (none, st)
    | (some e, st) => (some (.array e), st)
  else (none, st)

/-- what a specification gives, with the arguments that were not taken; nothing may follow it -/
def finish {α : Type} : Option α × SpecState → Option (α × List Int)
  | (some x, st) => if skipWs st.cur = [] then some (x, st.args) else none
  | (none, _) => none

/-- the specification given to `wah_define_type`, and whether the type is fresh -/
def defineSpec (typeCount : Nat) (spec : List Char) (args : List Int) : Option ((Bool × SpecType) × List Int) :=
  let fresh := (takeKw "fresh" spec).isSome
  match parseDefined ⟨typeCount, true⟩ ⟨(takeKw "fresh" spec).getD spec, args⟩ with
  | (none, _) => none
  | (some t, st) => finish (some (fresh, t), st)

/-- the specification given to `wah_export_func`, which takes no arguments -/
def exportSpec (typeCount : Nat) (types : List Char) : Option FuncType :=
  let hasFn := (takeKw "fn" types).isSome
  (finish (parseFunc ⟨typeCount, false⟩ (!hasFn) ⟨types, []⟩)).map Prod.fst

end TypeSpec

end Wah
