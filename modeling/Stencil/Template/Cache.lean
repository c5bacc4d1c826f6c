import Stencil.Assoc
import Stencil.Path.Basic

/-!
# Caches of compiled templates

An entry counts when it was stored no earlier than the template and the compiler were last changed.

## Main definitions

* `Payload`, `CacheEntry`, `Cache` — compiled code by key, with the time it was stored.
* `Cache.get?` — the entry of a key, when it is fresh.
-/

namespace Stencil

/-- Compiled code that is kept. -/
inductive Payload where
  /-- The code itself. -/
  | code (text : List Char) : Payload
  /-- The file that holds the code. -/
  | file (path : Path) : Payload
  deriving DecidableEq

/-- An entry of a cache. -/
structure CacheEntry where
  /-- The code. -/
  payload : Payload
  /-- When it was stored, in seconds. -/
  storedAt : Nat
  deriving DecidableEq

/-- Whether the entry is no older than a change. -/
def CacheEntry.isFresh (e : CacheEntry) (changed : Nat) : Bool := changed ≤ e.storedAt

/-- The entries of a cache by key. -/
abbrev Cache := Assoc (List Char) CacheEntry

namespace Cache

/-- The code under a key, when it is no older than a change. -/
def get? (c : Cache) (key : List Char) (changed : Nat) : Option Payload :=
  match Assoc.get? c key with
  | some e => if e.isFresh changed then some e.payload else none
  | none => none

/-- The cache with code stored under a key. -/
def put (c : Cache) (key : List Char) (payload : Payload) (now : Nat) : Cache :=
  Assoc.insert c key { payload, storedAt := now }

end Cache

/-- Where compiled code is kept. -/
inductive Backend where
  /-- In files under the cache directory. -/
  | files : Backend
  /-- In memory. -/
  | memory : Backend
  deriving DecidableEq

end Stencil
