import Narrative.Text.Case

/-!
This module contains the tree of a document: elements with their attributes, and the text in them.
-/

namespace Narrative.Markup

structure Attribute where
  name : String
  value : String
deriving Repr, DecidableEq

inductive Node where
  | element (name : String) (attributes : List Attribute) (children : List Node)
  | text (content : String)
deriving Inhabited

namespace Node

def isElement : Node → Bool
  | element .. => true
  | text _ => false

def children : Node → List Node
  | element _ _ children => children
  | text _ => []

def childElements (n : Node) : List Node :=
  n.children.filter isElement

def name : Node → String
  | element name .. => name
  | text _ => ""

def attribute? (n : Node) (name : String) : Option String :=
  match n with
  | element _ attributes _ =>
    (attributes.find? fun a => Text.sameName a.name name).map (·.value)
  | text _ => none

mutual

def content : Node → String
  | text content => content
  | element _ _ children => contentOfAll children

def contentOfAll : List Node → String
  | [] => ""
  | node :: nodes => content node ++ contentOfAll nodes

end

mutual

def elements : Node → List Node
  | text _ => []
  | element name attributes children =>
    element name attributes children :: elementsOfAll children

def elementsOfAll : List Node → List Node
  | [] => []
  | node :: nodes => elements node ++ elementsOfAll nodes

end

def elementsNamed (n : Node) (name : String) : List Node :=
  n.elements.filter fun element => Text.sameName element.name name

def firstNamed? (n : Node) (name : String) : Option Node :=
  (n.elementsNamed name).head?

end Node

end Narrative.Markup
