import Narrative.Markup.Scope
import Narrative.Markup.Token

/-!
This module contains the reading of documents: the tokens of a document nested into the tree of its
root element. A document that is not well formed has no tree, and neither has one with a definition
of its type.
-/

namespace Narrative.Markup

structure Frame where
  name : QName
  scope : Scope
  attributes : List Attribute
  children : List Node

def Frame.close (f : Frame) : Node :=
  .element (String.ofList f.name.name) f.attributes f.children.reverse

def Frame.open? (outer : Scope) (name : QName) (written : List (QName × List Char)) :
    Option Frame := do
  let (declared, read) ← Scope.divide written
  let scope := declared ++ outer
  if scope.admitsElement name then
    let attributes ← scope.attributes read
    some { name, scope, attributes, children := [] }
  else
    none

structure Reading where
  frames : List Frame := []
  root : Option Node := none

namespace Reading

def attach (r : Reading) (node : Node) : Reading :=
  match r.frames with
  | [] => { r with root := some node }
  | frame :: frames =>
    { r with frames := { frame with children := node :: frame.children } :: frames }

def isOutside (r : Reading) : Bool :=
  r.frames.isEmpty

def step (r : Reading) (token : Token) : Option Reading :=
  match token with
  | .opening name written isEmpty =>
    if r.isOutside && r.root.isSome then
      none
    else do
      let outer := (r.frames.head?.map (·.scope)).getD []
      let frame ← Frame.open? outer name written
      if isEmpty then
        some (r.attach frame.close)
      else
        some { r with frames := frame :: r.frames }
  | .closing name =>
    match r.frames with
    | [] => none
    | frame :: frames =>
      if frame.name = name then
        some ({ r with frames }.attach frame.close)
      else
        none
  | .text cs =>
    if r.isOutside then
      if cs.all isSpace then some r else none
    else
      (textOf cs).map fun content => r.attach (.text (String.ofList content))
  | .data cs =>
    if r.isOutside then none else some (r.attach (.text (String.ofList (dataOf cs))))

end Reading

def Node.ofDocument? (document : String) : Option Node := do
  let cs := document.toList
  let cs := if cs.head? = some '\uFEFF' then cs.tail else cs
  if cs.all isXmlChar then
    let cs ← Token.dropDeclaration cs
    let tokens ← Token.scanAll cs
    let reading ← tokens.foldlM Reading.step {}
    if reading.isOutside then reading.root else none
  else
    none

end Narrative.Markup
