import Stencil.Diagnostic
import Stencil.Markup.Island
import Stencil.Path.Basic
import Stencil.Script.Binding
import Stencil.Text.Blank

/-!
# Hidden fields of forms

Every form gets the hidden fields that a server needs to answer it: the address to go back to on an
error, the values that identify the request, and the ruleset that its attribute names.  A field
that the form has already is not added.

## Main definitions

* `Form` — the parts of a form.
* `formAt` — the pattern of forms.
* `rulesetPath?` — the file of a ruleset.
* `augmentForms` — the text with the fields added, and what is reported.
-/

namespace Stencil

open Text

/-- A form: its opening tag, its content and its closing tag. -/
structure Form where
  /-- The opening tag. -/
  tag : List Char
  /-- The content. -/
  body : List Char
  /-- The closing tag. -/
  closing : List Char

/-- What may stop the search for forms: a form, or an opening tag whose form never ends. -/
inductive FormPiece where
  /-- A form. -/
  | form (f : Form) : FormPiece
  /-- The rest of the text, in which no form is looked for. -/
  | rest : FormPiece

/-! ### Finding forms -/

/-- The number of characters up to and with the end of an opening tag, of which the next `n` are
read already.  Islands are read at once, and no other tag may start. -/
def formTagEnd : Nat → List Char → Option Nat
  | _, [] => none
  | n + 1, _ :: cs => (formTagEnd n cs).map (· + 1)
  | 0, c :: cs =>
    if c = '>' then some 1
    else if c = '<' then
      match dropStart? openTag (c :: cs) with
      | some rest =>
        match breakOn closeTag rest with
        | some (code, _) =>
          (formTagEnd (code.length + openTag.length + 1) cs).map (· + 1)
        | none => none
      | none => none
    else (formTagEnd 0 cs).map (· + 1)

/-- A phrase, case aside; it is written small. -/
def phraseFold (p : List Char) : Matcher Unit := fun cs =>
  (dropStartFold? p cs).map fun _ => ((), p.length)

/-- Whether a text goes on behind the name of a form tag. -/
def endsFormName : List Char → Bool
  | [] => false
  | c :: _ => isBlank c || c = '>'

/-- A form, or the rest of a text without a closing tag. -/
def formAt : Matcher FormPiece := fun cs =>
  match dropStartFold? "<form".toList cs with
  | some rest =>
    match endsFormName rest, formTagEnd 0 rest with
    | true, some n =>
      match findFirst? (phraseFold "</form>".toList) (rest.drop n) with
      | some (body, _, closing, _) =>
        let tag := cs.take (n + 5)
        some (.form ⟨tag, body, closing⟩, tag.length + body.length + closing.length)
      -- without a closing tag from here on there is no form after this one either
      | none => some (.rest, cs.length)
    | _, _ => none
  | none => none

/-! ### Rulesets -/

/-- The attribute that names the ruleset, with the blanks before it. -/
def rulesetAttributeAt : Matcher (List Char) := fun cs =>
  match dropStartFold? "ruleset=\x22".toList (cs.dropWhile isBlank) with
  | some rest =>
    (breakOn ['\x22'] rest).map fun (name, _) =>
      (name, (cs.takeWhile isBlank).length + name.length + 10)
  | none => none

/-- A character of the name of a module. -/
def isModuleChar (c : Char) : Bool := isWord c || c = '-'

/-- The directory of a module at the start of a path. -/
def moduleAt (cs : Path) : Option Path :=
  match dropStart? "modules/".toList cs with
  | some rest =>
    let name := rest.takeWhile isModuleChar
    if name.isEmpty then none else some ("modules/".toList ++ name)
  | none => none

/-- The directory of the module after the first slash that has one after it. -/
def moduleAfterSlash : Path → Option Path
  | [] => none
  | c :: cs => (if c = '/' then moduleAt cs else none).or (moduleAfterSlash cs)

/-- The directory of the module that a template belongs to. -/
def moduleOf (template : Path) : Option Path := (moduleAt template).or (moduleAfterSlash template)

/-- The name of a ruleset without the signs that mark shared ones. -/
def rulesetName (declared : List Char) : List Char := declared.filter (· ≠ '@')

/-- The file of a ruleset: a name with an at sign is shared, any other one belongs to the module of
the template. -/
def rulesetPath? (declared : List Char) (template rulesetDir : Path) : Option Path :=
  let file := rulesetName declared ++ ".xml".toList
  if (rulesetName declared).isEmpty then none
  else if declared.contains '@' then some (dropRightWhile (· == '/') rulesetDir ++ '/' :: file)
  else (moduleOf template).map fun dir => dir ++ "/ruleset/".toList ++ file

/-! ### Fields -/

/-- The fields that identify a request. -/
def identityFields : List (List Char) := ["act".toList, "mid".toList, "vid".toList]

/-- A hidden field. -/
def hiddenField (name value : List Char) : List Char :=
  "<input type=\x22hidden\x22 name=\x22".toList ++ name ++ "\x22 value=\x22".toList ++ value ++
    "\x22 />".toList

/-- An attribute that names an identifying field, with the blank before it. -/
def identityNameAt : Matcher (List Char)
  | [] => none
  | c :: cs =>
    if isBlank c then
      (dropStartFold? "name=\x22".toList cs).bind fun rest =>
        identityFields.findSome? fun field =>
          (dropStartFold? (field ++ ['\x22']) rest).map fun _ => (field, 11)
    else none

/-- The last identifying field that a tag names before its end, and the characters up to there. -/
def lastIdentity : List Char → Option (List Char × Nat)
  | [] => none
  | c :: cs =>
    if c = '>' then none
    else
      match lastIdentity cs with
      | some (field, n) => some (field, n + 1)
      | none => identityNameAt (c :: cs)

/-- An input for an identifying field. -/
def identityInputAt : Matcher (List Char) := fun cs =>
  (dropStartFold? "<input".toList cs).bind fun rest =>
    (lastIdentity rest).map fun (field, n) => (field, n + 6)

/-- An input for the address to go back to. -/
def returnInputAt : Matcher Unit := fun cs =>
  match dropStartFold? "<input".toList cs with
  | some rest =>
    let tag := rest.takeWhile (· ≠ '>')
    let named := occurs (phraseFold "name=\x22error_return_url\x22".toList) tag
    if tag.length < rest.length && named then some ((), tag.length + 7) else none
  | none => none

/-- The value of a field that the context has. -/
def contextField (name : List Char) : List Char :=
  hiddenField name (island ("echo $".toList ++ contextPath ++ name))

/-- The fields that a form lacks. -/
def missingFields (body : List Char) : List Char :=
  let present := findAll identityInputAt body
  (if occurs returnInputAt body then []
    else hiddenField "error_return_url".toList
      (island "echo htmlspecialchars(request_uri())".toList)) ++
    (identityFields.filter fun field => ! present.contains field).flatMap contextField

/-- The opening tag of a form without its ruleset, in front of it the code that asks for the
ruleset, then the field with its name, and whether the ruleset has no file. -/
def rulesetParts (template rulesetDir : Path) (tag : List Char) :
    List Char × List Char × Option (List Char) :=
  match findFirst? rulesetAttributeAt tag with
  | some (before, declared, source, rest) =>
    let field := hiddenField "ruleset".toList (rulesetName declared)
    match rulesetPath? declared template rulesetDir with
    | some path =>
      (island ("load_ruleset(".toList ++ quoteLiteral path ++ [')']) ++ before ++ rest, field, none)
    | none => (before ++ rest, field, some (trim source))
  | none => (tag, [], none)

/-- A form with its fields, and the text of a ruleset attribute that has no file. -/
def Form.augment (template rulesetDir : Path) (f : Form) : List Char × Option (List Char) :=
  let (tag, field, fault) := rulesetParts template rulesetDir f.tag
  (tag ++ missingFields f.body ++ field ++ f.body ++ f.closing, fault)

/-- The finding for a ruleset without a file. -/
def unresolvedRuleset (offset : Nat) (text : List Char) : Finding :=
  { defect := .unresolvedPath, offset, text,
    help := some "use `@name` for a shared ruleset outside a module" }

/-- The pieces of a text with the forms augmented; the first piece starts at `offset`. -/
def augmentPieces (template rulesetDir : Path) :
    Nat → List (Piece FormPiece) → List Char × List Finding
  | _, [] => ([], [])
  | offset, .plain c :: rest =>
    let (out, findings) := augmentPieces template rulesetDir (offset + c.utf8Size) rest
    (c :: out, findings)
  | offset, .found .rest source :: rest =>
    let (out, findings) := augmentPieces template rulesetDir (offset + byteSize source) rest
    (source ++ out, findings)
  | offset, .found (.form f) source :: rest =>
    let (out, findings) := augmentPieces template rulesetDir (offset + byteSize source) rest
    let (text, fault) := f.augment template rulesetDir
    (text ++ out, (fault.map (unresolvedRuleset offset)).toList ++ findings)

/-- The text with the fields of its forms added, and the rulesets that have no file.  The path of
the template is relative to the root of the application. -/
def augmentForms (template rulesetDir : Path) (cs : List Char) : List Char × List Finding :=
  augmentPieces template rulesetDir 0 (cut formAt cs)

end Stencil
