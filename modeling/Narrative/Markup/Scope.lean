import Narrative.Markup.Content
import Narrative.Markup.Node

/-!
This module contains the namespaces that are declared for an element, and the attributes that it has
beside these declarations.
-/

namespace Narrative.Markup

/--
The declarations in force for an element, those of the element itself first. A qualifier is declared
for a namespace, and no qualifier for the namespace of names without one.
-/
abbrev Scope := List (List Char × List Char)

namespace Scope

def standard (path : String) : List Char :=
  ("http:" ++ "//www.w3.org/" ++ path).toList

def xml : List Char :=
  standard "XML/1998/namespace"

def xmlns : List Char :=
  standard "2000/xmlns/"

def namespace? (scope : Scope) (qualifier : List Char) : Option (List Char) :=
  (scope.find? fun declared => declared.1 == qualifier).map (·.2)

def declare (declared : Scope) (qualifier address : List Char) : Option Scope :=
  if address == xmlns then
    none
  else if (qualifier == "xml".toList) != (address == xml) then
    none
  else if declared.any fun other => other.1 == qualifier then
    none
  else if address == xml then
    some declared
  else
    some (declared ++ [(qualifier, address)])

def declareDefault (declared : Scope) (address : List Char) : Option Scope :=
  if address == xml || address == xmlns then none else some (declared ++ [([], address)])

def divide : List (QName × List Char) → Option (Scope × List (QName × List Char)) :=
  go [] []
where
  go (declared : Scope) (read : List (QName × List Char)) :
      List (QName × List Char) → Option (Scope × List (QName × List Char))
    | [] => some (declared, read.reverse)
    | (name, written) :: rest => do
      let value ← valueOf written
      if name.qualifier == "xmlns".toList then
        go (← declared.declare name.name value) read rest
      else if name.name == "xmlns".toList then
        go (← declared.declareDefault value) read rest
      else
        go declared ((name, value) :: read) rest

def ofAttribute (scope : Scope) (name : QName) : Option (Option (List Char)) :=
  if name.qualifier.isEmpty then some none
  else if name.qualifier == "xml".toList then some (some xml)
  else (scope.namespace? name.qualifier).map some

def admitsElement (scope : Scope) (name : QName) : Bool :=
  name.qualifier.isEmpty
    || (name.qualifier != "xmlns".toList && (scope.namespace? name.qualifier).isSome)

def attributes (scope : Scope) (read : List (QName × List Char)) : Option (List Attribute) := do
  let names ← read.mapM fun (name, _) => (scope.ofAttribute name).map fun space => (space, name.name)
  if names.eraseDups.length = names.length then
    some (read.map fun (name, value) => ⟨String.ofList name.name, String.ofList value⟩)
  else
    none

end Scope

end Narrative.Markup
