/-
The references of a table, read through the record cache.

A stored row holds the key of an address; a `Reference` holds the address itself.
Whether a slot is free is not checked here.
-/
import Equates.Table.Basic

namespace Equates

/-- A use of an equate at an address. -/
structure Reference where
  id : Key
  address : Address
  operand : Int
  hash : UInt64
  equate : Key
deriving DecidableEq, Repr

/-- The reference that a row stands for. -/
def ReferenceRow.decode (r : ReferenceRow) : Except Problem Reference :=
  match Address.ofKey? r.addressKey with
  | some a => .ok ⟨r.id, a, r.operand, r.hash, r.equate⟩
  | none => .error (.undecodableReference r.id r.addressKey)

namespace Table

def dropReferenceCache : Action Unit :=
  modify fun t => { t with referenceCache := t.referenceCache.clear }

/-- Looks in the cache. -/
def cachedReference (id : Key) : Action (Option ReferenceRow) :=
  modifyGet fun t =>
    let (r?, c) := t.referenceCache.get id; (r?, { t with referenceCache := c })

def cacheReference (r : ReferenceRow) : Action Unit :=
  modify fun t => { t with referenceCache := t.referenceCache.put r.id r }

def uncacheReference (id : Key) : Action Unit :=
  modify fun t => { t with referenceCache := t.referenceCache.erase id }

/-- The row of the reference `id`. -/
def fetchRow (id : Key) : Attempt (Option ReferenceRow) := do
  match ← cachedReference id with
  | some r => return r
  | none =>
    let row ← queryReferences .read none (·.get? id)
    if let some r := row then cacheReference r
    return row

/-- The reference `id`. -/
def fetchReference (id : Key) : Attempt (Option Reference) := do
  let some r ← fetchRow id | return none
  match r.decode with
  | .ok reference => return reference
  | .error p => refuse p

/-- Those of the given references that exist. -/
def fetchReferences : List Key → Attempt (List Reference)
  | [] => return []
  | id :: ids => do
    let r? ← fetchReference id
    return r?.toList ++ (← fetchReferences ids)

/-- Those of the given rows that exist. -/
def fetchRows : List Key → Attempt (List ReferenceRow)
  | [] => return []
  | id :: ids => do
    let r? ← fetchRow id
    return r?.toList ++ (← fetchRows ids)

/-- The keys of the references at an address; none at an address without a key. -/
def keysAt (a : Address) : Attempt (List Key) :=
  match a.key? with
  | some k => queryReferences .keysAt [] (·.keysAt k)
  | none => return []

/-- The keys of the references to an equate. -/
def keysTo (equate : Key) : Attempt (List Key) :=
  queryReferences .keysTo [] (·.keysTo equate)

def fetchAt (a : Address) : Attempt (List Reference) := do
  fetchReferences (← keysAt a)

def fetchTo (equate : Key) : Attempt (List Reference) := do
  fetchReferences (← keysTo equate)

/-- Stores a new reference row and answers with it. -/
def createReferenceRow (addressKey : Int) (operand : Int) (hash : UInt64) (equate : Key) :
    Attempt ReferenceRow :=
  storageCall (.references .create) none fun t =>
    let (r, rows) := t.references.create addressKey operand hash equate
    (.ok r, { t with references := rows })

def storeReference (a : Address) (operand : Int) (hash : UInt64) (equate : Key) :
    Attempt Reference := do
  let some k := a.key? | refuse (.unmappable a)
  let r ← createReferenceRow k operand hash equate
  cacheReference r
  return ⟨r.id, a, operand, hash, equate⟩

def eraseReference (id : Key) : Attempt Unit := do
  changeReferences .erase fun rows => (.ok (), rows.erase id)
  uncacheReference id

end Table

end Equates
