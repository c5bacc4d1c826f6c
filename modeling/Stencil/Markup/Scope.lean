import Stencil.Diagnostic
import Stencil.Markup.Island
import Stencil.Markup.Loop
import Stencil.Markup.Tag
import Stencil.Script.Binding

/-!
# Elements under control

An element with `cond` or `loop` attributes is wrapped into control statements: their heads come
before its opening tag and the closing braces after its closing tag.  Tags of one name are matched
with each other, as brackets are; tags of different names do not disturb each other.  An attribute
with a condition of its own, `name="value"|cond="EXPR"`, is written under that condition.

## Main definitions

* `ControlAttribute` — the attributes that control an element.
* `ControlAttribute.head?` — the head of the statement for an attribute.
* `openTagText` — an opening tag without its control attributes.
* `wrapPieces` — the tags of a text wrapped, from the innermost open element outwards.
* `compileScopes` — the text with its controlled elements wrapped, and what is reported.
-/

namespace Stencil

open Text

/-! ### Attributes -/

/-- An attribute that controls its element. -/
inductive ControlAttribute where
  /-- The element is written when the condition holds. -/
  | cond (code : List Char) : ControlAttribute
  /-- The element is written once a round. -/
  | loop (code : List Char) : ControlAttribute
  deriving DecidableEq

/-- A nonempty text up to a double quote, and its length with the quote. -/
def quotedValue (cs : List Char) : Option (List Char × Nat) :=
  match breakOn ['\x22'] cs with
  | some (c :: value, _) => some (c :: value, value.length + 2)
  | _ => none

/-- A control attribute with the blank before it. -/
def controlAttributeAt : Matcher ControlAttribute
  | [] => none
  | c :: cs =>
    if isBlank c then
      match dropStart? "loop=\x22".toList cs, dropStart? "cond=\x22".toList cs with
      | some rest, _ => (quotedValue rest).map fun (code, n) => (.loop code, n + 7)
      | _, some rest => (quotedValue rest).map fun (code, n) => (.cond code, n + 7)
      | _, _ => none
    else none

/-- The start of a control attribute or of the condition of an attribute. -/
def controlMarkAt : Matcher Unit
  | [] => none
  | c :: cs =>
    if (isBlank c || c = '|') && startsWith "cond=\x22".toList cs then some ((), 7)
    else if isBlank c && startsWith "loop=\x22".toList cs then some ((), 7)
    else none

/-- The head of the statement for a control attribute. -/
def ControlAttribute.head? : ControlAttribute → Option (List Char)
  | cond code => some ("if (".toList ++ bindVars code ++ [')'])
  | loop code => loopHead? (bindVars code)

/-- A character of the name of an attribute. -/
def isAttributeChar (c : Char) : Bool := isWord c || c = ':'

/-- An attribute with the blank before it and a condition after it: the attribute and the
condition. -/
def conditionalAttributeAt : Matcher (List Char × List Char)
  | [] => none
  | c :: cs =>
    if isBlank c then
      let name := cs.takeWhile isAttributeChar
      match name.isEmpty, dropStart? ['=', '\x22'] (cs.dropWhile isAttributeChar) with
      | false, some rest =>
        match quotedValue rest with
        | some (value, n) =>
          match dropStart? "|cond=\x22".toList (rest.drop n) with
          | some (d :: condition) =>
            (breakOn ['\x22'] condition).map fun (code, _) =>
              ((c :: name ++ '=' :: '\x22' :: value ++ ['\x22'], d :: code),
                name.length + n + code.length + 12)
          | _ => none
        | none => none
      | _, _ => none
    else none

/-- An attribute under its condition. -/
def conditionalAttribute (a : List Char × List Char) : List Char :=
  island ("if (".toList ++ bindVars a.2 ++ ") \x7b".toList) ++ a.1 ++ island ['\x7d']

/-- An opening tag without its control attributes, and with its conditional attributes under their
conditions. -/
def openTagText (source : List Char) : List Char :=
  replaceMatches conditionalAttributeAt conditionalAttribute
    (removeMatches controlAttributeAt source)

/-! ### Elements -/

/-- The control attributes of an opening tag with their sources. -/
def controlAttributes (source : List Char) : List (Found ControlAttribute) :=
  findPlaces controlAttributeAt source

/-- The heads of the statements around an element, from the outermost one. -/
def headsOf (source : List Char) : List (List Char) :=
  (controlAttributes source).filterMap fun a => a.value.head?

/-- The finding for a loop attribute of none of the shapes. -/
def malformedLoop (offset : Nat) (source : List Char) : Finding :=
  { defect := .malformedLoop, offset, text := trim source,
    help := some "use `LIST=>VALUE`, `LIST=>KEY,VALUE`, `INIT;COND;STEP` or `VAR=EXPR`" }

/-- The findings about the attributes of an opening tag. -/
def malformedLoops (offset : Nat) (source : List Char) : List Finding :=
  (controlAttributes source).filterMap fun a =>
    if a.value.head?.isNone then some (malformedLoop offset a.source) else none

/-- The finding for an element without its closing tag. -/
def unclosedElement (offset : Nat) (source : List Char) : Finding :=
  { defect := .unbalancedTag, offset, text := source,
    help := some "the element's closing tag is missing" }

/-- The islands with the heads of statements. -/
def headIslands (heads : List (List Char)) : List Char :=
  heads.flatMap fun head => island (head ++ " \x7b".toList)

/-- The island that closes a number of statements, nothing for none. -/
def closeIsland (n : Nat) : List Char :=
  if n = 0 then [] else island (List.replicate n '\x7d')

/-- An element that is open: its name and the number of statements around it. -/
structure OpenElement where
  /-- The name. -/
  name : List Char
  /-- The number of statements. -/
  statements : Nat

/-- The statements of the latest open element of a name, and the other open elements. -/
def closeLatest (name : List Char) : List OpenElement → Option (Nat × List OpenElement)
  | [] => none
  | e :: rest =>
    if e.name = name then some (e.statements, rest)
    else (closeLatest name rest).map fun (n, others) => (n, e :: others)

/-- What wrapping makes of the rest of a text. -/
structure Wrapped where
  /-- The text. -/
  out : List Char
  /-- The findings about attributes, in order. -/
  malformed : List Finding
  /-- The findings about elements without a closing tag, from the last one. -/
  unclosed : List Finding
  /-- The names of the closing tags of elements that were open before. -/
  closed : List (List Char)

/-- The rest with text in front. -/
def Wrapped.before (text : List Char) (w : Wrapped) : Wrapped := { w with out := text ++ w.out }

/-- An element without content in front of the rest. -/
def Wrapped.alone (offset : Nat) (source : List Char) (w : Wrapped) : Wrapped :=
  { w with
    out := headIslands (headsOf source) ++ openTagText source ++
      closeIsland (headsOf source).length ++ w.out
    malformed := malformedLoops offset source ++ w.malformed }

/-- An opening tag in front of the rest, which closes its element or leaves it open.  An element
that stays open loses the statements around it. -/
def Wrapped.opened (name : List Char) (offset : Nat) (source : List Char) (w : Wrapped) : Wrapped :=
  let w := { w with malformed := malformedLoops offset source ++ w.malformed }
  -- a closing tag of the name is left over for this element
  if name ∈ w.closed then
    { w with
      out := headIslands (headsOf source) ++ openTagText source ++ w.out
      closed := w.closed.erase name }
  else if (headsOf source).isEmpty then w.before (openTagText source)
  else
    { w with
      out := openTagText source ++ w.out
      unclosed := w.unclosed ++ [unclosedElement offset source] }

/-- A closing tag of an open element in front of the rest. -/
def Wrapped.closing (name source : List Char) (statements : Nat) (w : Wrapped) : Wrapped :=
  { w with out := source ++ closeIsland statements ++ w.out, closed := name :: w.closed }

/-- Whether an element has no content after its opening tag. -/
def isAlone (name source : List Char) : Bool := isVoid name || source.reverse.take 2 == ['>', '/']

/-- The tags of the observed names wrapped, when the first piece starts at `offset` after the given
open elements. -/
def wrapPieces (observed : List (List Char)) :
    Nat → List OpenElement → List (Piece Tag) → Wrapped
  | _, _, [] => { out := [], malformed := [], unclosed := [], closed := [] }
  | offset, opened, .plain c :: rest =>
    (wrapPieces observed (offset + c.utf8Size) opened rest).before [c]
  | offset, opened, .found tag source :: rest =>
    let next := offset + byteSize source
    if tag.name ∉ observed then (wrapPieces observed next opened rest).before source
    else if tag.isClosing then
      match closeLatest tag.name opened with
      | some (n, others) => (wrapPieces observed next others rest).closing tag.name source n
      | none => (wrapPieces observed next opened rest).before source
    else if isAlone tag.name source then
      (wrapPieces observed next opened rest).alone offset source
    else
      (wrapPieces observed next (⟨tag.name, (headsOf source).length⟩ :: opened) rest).opened
        tag.name offset source

/-- The name of an opening tag that has a control attribute or a conditional one. -/
def observedName? : Piece Tag → Option (List Char)
  | .plain _ => none
  | .found tag source =>
    if ! tag.isClosing && occurs controlMarkAt source then some tag.name else none

/-- The text with its controlled elements wrapped, and the findings. -/
def compileScopes (cs : List Char) : List Char × List Finding :=
  let pieces := cut tagAt cs
  let w := wrapPieces (pieces.filterMap observedName?) 0 [] pieces
  (w.out, w.malformed ++ w.unclosed)

end Stencil
