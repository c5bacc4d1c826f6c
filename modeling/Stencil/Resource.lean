import Stencil.Text.Pattern
import Stencil.Value.Basic

/-!
# Resource requests

Running templates ask their host for style sheets, scripts, plugins, language files, filters and
rulesets.  The requests are recorded in order.

## Main definitions

* `ResourceKind`, `ResourceRequest` — a file that is asked for.
* `ResourceRequest.ofMap?` — the request of the map that a template passes.
* `ResourceEvent` — everything a template can ask for.
* `loadedTargets` — the files asked for, in order.
-/

namespace Stencil

/-- The kind of a file, after its extension. -/
inductive ResourceKind where
  /-- A script, with the extension `js`. -/
  | script : ResourceKind
  /-- A style sheet, with the extension `css`. -/
  | stylesheet : ResourceKind
  /-- Anything else. -/
  | other : ResourceKind
  deriving DecidableEq

/-- The text after the last point, in small ASCII letters, empty when there is no point. -/
def extensionOf (name : List Char) : List Char :=
  match Text.breakLast '.' name with
  | some (_, extension) => extension.map Text.asciiLower
  | none => []

/-- The kind of a file name. -/
def ResourceKind.ofTarget (target : String) : ResourceKind :=
  if extensionOf target.toList = ['j', 's'] then script
  else if extensionOf target.toList = ['c', 's', 's'] then stylesheet
  else other

/-- A file that is asked for. -/
structure ResourceRequest where
  /-- The kind of the file. -/
  kind : ResourceKind
  /-- The file. -/
  target : String
  /-- Where a script goes, or the media of a style sheet. -/
  placement : String
  /-- The browsers the file is meant for. -/
  targetIe : String
  /-- The place in the queue. -/
  index : Option Int64
  /-- Whether a content network serves the file. -/
  useCdn : Bool
  /-- The address of the file in the network. -/
  cdnPrefix : String
  /-- The version of the file in the network. -/
  cdnVersion : String
  deriving DecidableEq

/-- The text of an entry, empty when there is none. -/
def entryText (entries : Assoc String Value) (key : String) : String :=
  match Assoc.get? entries key with
  | some v => v.text
  | none => ""

/-- Whether a text says yes. -/
def saysYes (s : String) : Bool :=
  ["1", "true", "y", "yes"].contains (String.ofList (s.toList.map Text.asciiLower))

/-- The request of the map that a template passes; there is none without a target. -/
def ResourceRequest.ofMap? (entries : Assoc String Value) : Option ResourceRequest :=
  let target := entryText entries "target"
  if target = "" then none
  else
    let kind := ResourceKind.ofTarget target
    some
      { kind
        target
        placement := entryText entries (if kind = .stylesheet then "media" else "type")
        targetIe := entryText entries "targetie"
        index := ((Assoc.get? entries "index").bind Value.toNumber?).map fun n =>
          Number.truncate n.toFloat
        useCdn := saysYes (entryText entries "usecdn")
        cdnPrefix := entryText entries "cdnprefix"
        cdnVersion := entryText entries "cdnversion" }

/-- Something a template asks its host for. -/
inductive ResourceEvent where
  /-- A file to load. -/
  | load (request : ResourceRequest) : ResourceEvent
  /-- A file not to load. -/
  | unload (target targetIe media : String) : ResourceEvent
  /-- A plugin. -/
  | jsPlugin (name : String) : ResourceEvent
  /-- A directory of language files. -/
  | lang (dir : String) : ResourceEvent
  /-- A form filter. -/
  | xmlFilter (dir file : String) : ResourceEvent
  /-- A ruleset. -/
  | ruleset (path : String) : ResourceEvent
  deriving DecidableEq

/-- The files asked for, in order. -/
def loadedTargets (events : List ResourceEvent) : List String :=
  events.filterMap fun event =>
    match event with
    | .load request => some request.target
    | _ => none

end Stencil
