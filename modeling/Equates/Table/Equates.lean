/-
The equates of a table, read through the record cache.

Reads ask the cache first and fill it from the stored rows.  Writes go to the
rows first and touch the cache only when that succeeded, so that a failing
storage call never leaves the cache ahead of the rows.  Each successful creation,
removal and renaming makes one change known.
-/
import Equates.Name.Validity
import Equates.Table.Basic

namespace Equates.Table

def dropEquateCache : Action Unit :=
  modify fun t => { t with equateCache := t.equateCache.clear }

/-- Looks in the cache. -/
def cachedEquate (id : Key) : Action (Option Equate) :=
  modifyGet fun t => let (e?, c) := t.equateCache.get id; (e?, { t with equateCache := c })

def cacheEquate (e : Equate) : Action Unit :=
  modify fun t => { t with equateCache := t.equateCache.put e.id e }

def uncacheEquate (id : Key) : Action Unit :=
  modify fun t => { t with equateCache := t.equateCache.erase id }

/-- The equate `id`. -/
def fetchEquate (id : Key) : Attempt (Option Equate) := do
  match ← cachedEquate id with
  | some e => return e
  | none =>
    let row ← queryEquates .read none (·.get? id)
    if let some e := row then cacheEquate e
    return row

def fetchNamed (name : String) : Attempt (Option Equate) := do
  match ← queryEquates .idOf none (·.idOf? name) with
  | some id => fetchEquate id
  | none => return none

/-- Those of the given equates that exist. -/
def fetchEquates : List Key → Attempt (List Equate)
  | [] => return []
  | id :: ids => do
    let e? ← fetchEquate id
    return e?.toList ++ (← fetchEquates ids)

/-- All equates in the order of their keys. -/
def fetchAll : Attempt (List Equate) := do
  let rows ← queryEquates .list [] (·.toList)
  fetchEquates (rows.map Equate.id)

def fetchWithValue (value : Int64) : Attempt (List Equate) := do
  return (← fetchAll).filter (·.value = value)

/-- Stores a new row and answers with it. -/
def createRow (name : String) (value : Int64) : Attempt Equate :=
  storageCall (.equates .create) none fun t =>
    let (e, rows) := t.equates.create name value
    (e, { t with equates := rows })

/-- A name is refused if an equate has it, and if it is blank. -/
def storeEquate (name : String) (value : Int64) : Attempt Equate := do
  if ← queryEquates .hasName false (·.hasName name) then
    refuse (.nameTaken name)
  if let .error p := Name.validate name then
    refuse p
  let e ← createRow name value
  cacheEquate e
  notify (.equateAdded e.name value)
  return e

/-- Removes the equate `id` if it exists.  References to it have to be gone. -/
def eraseEquate (id : Key) : Attempt Unit := do
  let some e ← fetchEquate id | return ()
  changeEquates .erase fun rows => (.ok (), rows.erase id)
  uncacheEquate id
  notify (.equateRemoved e.name e.value)

def announceRenaming (old new : String) : Action Unit :=
  notify (.equateRenamed old new)

/-- Gives the equate `id` a new name.  Its own name is accepted and changes nothing. -/
def relabel (id : Key) (name : String) : Attempt Equate := do
  let some e ← fetchEquate id | refuse (.noSuchEquate id)
  if e.name = name then
    return e
  if let .error p := Name.validate name then
    refuse p
  if ← queryEquates .hasName false (·.hasName name) then
    refuse (.nameTaken name)
  let renamed := { e with name }
  changeEquates .update (·.update renamed)
  cacheEquate renamed
  announceRenaming e.name name
  return renamed

end Equates.Table
