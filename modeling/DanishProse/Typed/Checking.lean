/-
  Trees from documents.

  First every signature is looked up, then every body, in the order of the
  functions; nothing more is looked up once there is a report.  The signatures
  are all known before the first body, so functions may call each other freely.

  * `Function.sign` gives a function its types, and a symbol if it has a body:
    symbols count from one;
  * `Sentence.check` turns a sentence into an action.  A declaration leaves no
    action; it adds a local for everything that follows in the function, in
    whatever block it stands;
  * `Tree.ofDocument` is the whole tree, as far as it was looked up.
-/
import DanishProse.Typed.Lookup

namespace DanishProse

/-! ## Signatures -/

/-- The types of the parameters of a pattern. -/
def lookupTypes (location : Location) : List String → Checked (List Ty)
  | [] => return []
  | name :: names => do
    let ty ← lookupType name location
    let tys ← lookupTypes location names
    return ty :: tys

/-- A function with its types, and with the given symbol if it has a body. -/
def Function.sign (f : Function) (symbol : Nat) : Checked Function := do
  let returnType ← lookupType f.returnName f.location
  let parameterTypes ← lookupTypes f.location (f.pattern.parameters.filterMap PatternPart.typeName?)
  let role := match f.role with
    | .user _ locals body => .user symbol locals body
    | role => role
  return { f with returnType, parameterTypes, role }

/-- Signs functions up to the first one with a report; `symbol` is the next
    one to give. -/
def signAll (symbol : Nat) : List Function → Checked (List Function)
  | [] => return []
  | f :: fs =>
    let signed := f.sign symbol
    if signed.reports.isEmpty then
      let more := signAll (if f.isUser then symbol + 1 else symbol) fs
      ⟨signed.value :: more.value, more.reports⟩
    else ⟨signed.value :: fs, signed.reports⟩

/-! ## Bodies -/

/-- Adds a local in the next slot. -/
def addLocal (locals : List Local) (name : String) (type : Ty) (isParameter : Bool) :
    List Local :=
  locals ++ [⟨name, locals.length, type, isParameter⟩]

/-- The locals that a function starts with. -/
def Function.parameterLocals (f : Function) : List Local :=
  (f.pattern.parameters.zip f.parameterTypes).foldl
    (fun locals (part, ty) => addLocal locals part.name ty true) []

/-- Actions, and the locals after them. -/
structure Body where
  actions : List Action
  locals : List Local

mutual

/-- The action of a sentence, if it leaves one, when some locals are there
    already. -/
def Sentence.check (fs : List Function) (locals : List Local) : Sentence → Checked Body
  | .declare name typeName location => do
    let ty ← lookupType typeName location
    return ⟨[], addLocal locals name ty false⟩
  | .express cs => do
    let e ← lookupClauses fs locals cs
    return ⟨[.evaluate e], locals⟩
  | .giveBack cs => do
    let e ← lookupClauses fs locals cs
    return ⟨[.giveBack e], locals⟩
  | .when cs body => do
    let e ← lookupClauses fs locals cs
    let inner ← checkSentences fs locals body
    return ⟨[.when e inner.actions], inner.locals⟩
  | .whenElse cs body otherwise => do
    let e ← lookupClauses fs locals cs
    let inner ← checkSentences fs locals body
    let other ← checkSentences fs inner.locals otherwise
    return ⟨[.whenElse e inner.actions other.actions], other.locals⟩
  | .loop cs body => do
    let e ← lookupClauses fs locals cs
    let inner ← checkSentences fs locals body
    return ⟨[.loop e inner.actions], inner.locals⟩

/-- The actions of sentences. -/
def checkSentences (fs : List Function) (locals : List Local) : List Sentence → Checked Body
  | [] => return ⟨[], locals⟩
  | s :: ss => do
    let first ← s.check fs locals
    let more ← checkSentences fs first.locals ss
    return ⟨first.actions ++ more.actions, more.locals⟩

end

/-- A function with the body that was written for it. -/
def Function.fill (fs : List Function) (f : Function) (body : List Sentence) : Checked Function := do
  let checked ← checkSentences fs f.parameterLocals body
  match f.role with
  | .user symbol _ _ => return { f with role := .user symbol checked.locals checked.actions }
  | _ => return f

/-- Fills functions up to the first one with a report. -/
def fillAll (fs : List Function) : List (Function × List Sentence) → Checked (List Function)
  | [] => return []
  | (f, body) :: others =>
    let filled := f.fill fs body
    if filled.reports.isEmpty then
      let more := fillAll fs others
      ⟨filled.value :: more.value, more.reports⟩
    else ⟨filled.value :: others.map Prod.fst, filled.reports⟩

/-! ## Trees -/

/-- A function with a body that has not been looked at. -/
def Definition.declared (d : Definition) : Function :=
  { pattern := d.pattern, returnName := d.returnName, role := .user 0 [] [],
    location := d.location }

/-- The functions of a document, after those built in, before any of them has
    been looked up. -/
def Document.declared (d : Document) : List Function :=
  builtins ++ d.definitions.map Definition.declared

/-- The tree of a document.  Nothing is looked up unless the document is clean
    of reports. -/
def Tree.ofDocument (clean : Bool) (d : Document) : Checked Tree :=
  if clean then
    let signed := signAll 1 d.declared
    if signed.reports.isEmpty then
      let own := (signed.value.drop builtins.length).zip (d.definitions.map Definition.body)
      let filled := fillAll signed.value own
      ⟨⟨signed.value.take builtins.length ++ filled.value⟩, filled.reports⟩
    else ⟨⟨signed.value⟩, signed.reports⟩
  else ⟨⟨d.declared⟩, []⟩

end DanishProse
