import Teal.Program.Build.Basic
import Teal.Tree

/-!
Expressions. Parts of an expression are built from left to right, and all of them even when one fails,
so that every fault is reported once. The steps that are common to several forms take the building of
their parts as an argument.
-/

namespace Teal.Program.Build

def castTy? (name : String) : Option Ty :=
  if name == "toint" then some .integer
  else if name == "tobyte" then some .bytes
  else none

def constInt? (b : Builder) (scope : ScopeId) (name : String) : Option UInt64 :=
  match b.scopes.kindOf? scope name with
  | some (.constant (.int i)) => b.pool.ints[i]?
  | _ => none

/-- What is known of an expression before it is built: the number it stands for. -/
def constArg (b : Builder) (scope : ScopeId) : Tree.Expr → Builtin.ConstArg
  | .int _ n => .int n
  | .group _ inner => constArg b scope inner
  | .var _ name => ((constInt? b scope name).map .int).getD .unknown
  | _ => .unknown

def known (scope : ScopeId) (e : Tree.Expr) : Build Builtin.ConstArg := do
  visit [scope]
  return constArg (← get) scope e

def ident (scope : ScopeId) (span : Span) (name : String) : Build (Option Expr) := do
  match ← kindOf? scope name with
  | none => fail span (.undefined name)
  | some (.variable _) | some (.constant _) => return some (.ident span name scope)
  | some (.function _) => fail span (.functionValue name)
  | some (.runtime r) => fail span (.runtimeValue name r)

/-- An index: a known number that fits an immediate, or else what `build` yields. -/
def index (scope : ScopeId) (e : Tree.Expr) (build : Build (Option Expr)) : Build (Option Index) := do
  match (← known scope e).immediate? with
  | some n => return some (.const n)
  | none => return (← build).map .dynamic

/-- An index that from some version on may be computed. -/
def versionedIndex (needed : Nat) (feature : Feature) (span : Span)
    (build : Build (Option Index)) : Build (Option Index) := do
  match ← build with
  | some (.dynamic e) =>
    if ← requireVersion needed feature span then
      return some (.dynamic e)
    return none
  | i => return i

/-- An element of a name that stands on its own; only the arguments of the program have any. -/
def element (scope : ScopeId) (span : Span) (base : Ident) (build : Build (Option Index)) :
    Build (Option Expr) := do
  match ← kindOf? scope base.text with
  | some (.runtime .args) =>
    let i ← versionedIndex 5 .dynamicArgument base.span build
    return i.map (.arg span)
  | some (.runtime .gtxn) => fail base.span (.fieldNeeded base.text)
  | none => fail base.span (.undefined base.text)
  | some _ => fail base.span (.notIndexable base.text)

/-- A method that is called on an inner transaction: whether it submits it, or else begins it. -/
def innerMethod (scope : ScopeId) (base method : Ident) : Build (Option Bool) := do
  match ← kindOf? scope base.text with
  | some (.runtime .itxn) =>
    if method.text == "begin" then
      return some false
    else if method.text == "submit" then
      return some true
    else
      fail method.span (.unknownMethod method.text base.text)
  | none => fail base.span (.undefined base.text)
  | some _ => fail base.span (.noMethods base.text)

/-- What a field is read from: the source, its name and its fields. -/
structure FieldOwner where
  source : FieldSource
  name : String
  table : Field.Table

def noFields (scope : ScopeId) (name : String) (span : Span) : Build (Option FieldOwner) := do
  match ← kindOf? scope name with
  | none => fail span (.undefined name)
  | some _ => fail span (.noFields name)

/-- A name before the dot of a field. -/
def namedOwner (scope : ScopeId) (name : Ident) : Build (Option FieldOwner) := do
  match ← runtimeOf? scope name.text with
  | some .txn => return some ⟨.txn, name.text, .txn⟩
  | some .global => return some ⟨.global, name.text, .global⟩
  | some .itxn => return some ⟨.itxn, name.text, .txn⟩
  | some .gtxn => fail name.span (.indexNeeded name.text)
  | _ => noFields scope name.text name.span

/-- An element before the dot of a field; only the group has elements with fields. -/
def elementOwner (scope : ScopeId) (span : Span) (base : Ident) (build : Build (Option Index)) :
    Build (Option FieldOwner) := do
  match ← runtimeOf? scope base.text with
  | some .gtxn =>
    let i ← versionedIndex 3 .dynamicGroup span build
    return i.map fun i => ⟨.gtxn i, base.text, .txn⟩
  | _ => noFields scope base.text base.span

def fieldOf (owner : FieldOwner) (name : Ident) : Build (Option Field) := do
  match owner.table.find? name.text with
  | none => fail name.span (.unknownField name.text owner.name)
  | some field =>
    if ← requireVersion field.minVersion (.field field.name) name.span then
      return some field
    return none

/-- Whether the version allows to read fields of the source. -/
def requireSource (source : FieldSource) (span : Span) : Build Bool := do
  if source.isInner then
    requireVersion 5 .innerFields span
  else
    return true

def fieldAccess (span : Span) (name : Ident) (owner : Build (Option FieldOwner)) :
    Build (Option Expr) := do
  let some owner ← owner | return none
  let some field ← fieldOf owner name | return none
  if field.isArray then
    fail name.span (.arrayIndexNeeded field.name)
  else if ← requireSource owner.source span then
    return some (.field span owner.source field)
  else
    return none

def fieldAtAccess (span : Span) (name : Ident) (indexSpan : Span) (owner : Build (Option FieldOwner))
    (build : Build (Option Index)) : Build (Option Expr) := do
  let some owner ← owner | return none
  let some field ← fieldOf owner name | return none
  if !field.isArray then
    return ← fail indexSpan (.notArray field.name)
  let some i ← versionedIndex 5 .dynamicArray indexSpan build | return none
  if !(← requireSource owner.source span) then
    return none
  if owner.source.isInner && i.isDynamic then
    return ← fail span (.innerDynamicIndex field.name)
  return some (.fieldAt span owner.source field i)

def functionCall (span : Span) (f : Nat) (name : Ident) (found : Nat)
    (build : Build (List (Option Expr))) : Build (Option Expr) := do
  let some callee := (← get).functions[f]?
    | do
      breach (.noFunction f)
      return none
  if callee.isEntry then
    return ← fail name.span (.entryCalled name.text)
  let args ← build
  if found ≠ callee.params.length then
    return ← fail span (.functionArguments name.text callee.params.length found)
  match args.mapM id with
  | none => return none
  | some args => return some (.call span f name.text (← freshLabel) args)

/-- A builtin that may be called with so many arguments. -/
def callableBuiltin (span : Span) (name : Ident) (found : Nat) : Build (Option Builtin) := do
  match Builtin.find? name.text with
  | none => fail name.span (.undefined name.text)
  | some b =>
    if !b.callable then
      fail name.span (.internalOpcode name.text)
    else if !(← requireVersion b.minVersion (.builtin b.name) name.span) then
      return none
    else if found ≠ b.args.length then
      fail span (.builtinArguments b.name b.args.length found)
    else
      return some b

def fieldArgument (builtin : String) (position : Nat) (e : Tree.Expr) :
    Build (Option Builtin.ConstArg) :=
  match e with
  | .var _ name => return some (.name name)
  | e => fail e.span (.fieldNameArgument position builtin)

/-- A call of a builtin with what is known of its arguments and those that are pushed. -/
def builtinCall (span : Span) (b : Builtin)
    (build : Build (List Builtin.ConstArg × Option (List Expr))) : Build (Option Expr) := do
  let (consts, args) ← build
  let some args := args | return none
  match b.instantiate args consts (← get).version with
  | .ok (call, args) => return some (.builtin span call args)
  | .error f => fail span (.builtin f)

mutual

def expr (scope : ScopeId) : Tree.Expr → Build (Option Expr)
  | .int span n => return some (.literal span (.int n) (← internInt n))
  | .bytes span bs => return some (.literal span (.bytes bs) (← internBytes bs))
  | .var span name => ident scope span name
  | .unary span op e => return (← expr scope e).map (.unary span op)
  | .binary span op l r => do
    let l ← expr scope l
    let r ← expr scope r
    return Expr.binary span op <$> l <*> r
  | .group span e => return (← expr scope e).map (.group span)
  | .call span name args => do
    match ← kindOf? scope name.text with
    | some (.function f) => functionCall span f name args.length (exprs scope args)
    | some kind => fail name.span (.notFunction name.text kind)
    | none =>
      match castTy? name.text with
      | some ty =>
        match args with
        | [e] => return (← expr scope e).map (.cast span ty)
        | args => fail span (.castArguments name.text args.length)
      | none =>
        let some b ← callableBuiltin span name args.length | return none
        builtinCall span b (arguments scope b.name 1 b.args args)
  | .cond span test yes no => do
    let label ← freshLabel
    let test ← expr scope test
    let yes ← expr scope yes
    let no ← expr scope no
    return Expr.cond span label <$> test <*> yes <*> no
  | .element span base i => element scope span base (index scope i (expr scope i))
  | .field span owner name => fieldAccess span name (fieldOwner scope owner)
  | .fieldAt span owner name i =>
    fieldAtAccess span name i.span (fieldOwner scope owner) (index scope i (expr scope i))
  | .method span base method _ => do
    match ← innerMethod scope base method with
    | some _ => fail span (.methodValue base.text method.text)
    | none => return none

def fieldOwner (scope : ScopeId) : Tree.Owner → Build (Option FieldOwner)
  | .name name => namedOwner scope name
  | .element span base i => elementOwner scope span base (index scope i (expr scope i))

def exprs (scope : ScopeId) : List Tree.Expr → Build (List (Option Expr))
  | [] => return []
  | e :: rest => do
    let e ← expr scope e
    return e :: (← exprs scope rest)

def arguments (scope : ScopeId) (builtin : String) (position : Nat) :
    List Builtin.ArgShape → List Tree.Expr → Build (List Builtin.ConstArg × Option (List Expr))
  | shape :: shapes, e :: rest => do
    if shape.isField then
      let const ← fieldArgument builtin position e
      let (consts, args) ← arguments scope builtin (position + 1) shapes rest
      return (const.getD .unknown :: consts, if const.isSome then args else none)
    else
      let const ← known scope e
      let e ← expr scope e
      let (consts, args) ← arguments scope builtin (position + 1) shapes rest
      return (const :: consts, List.cons <$> e <*> args)
  | _, _ => return ([], some [])

end

end Teal.Program.Build
