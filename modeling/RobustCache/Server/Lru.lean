import RobustCache.Store.Rehash

/-! # The abstract store

What the store of a server is for: a list of (key, value, version) triples with
distinct keys, the most recently used one first. `fits` says which lists may
stay without an eviction.
-/

namespace RobustCache.Lru

open Lib

variable (fits : List Item → Prop) [DecidablePred fits]

def lookup (key : Bytes) (items : List Item) : Option Item := Recency.lookup Item.key key items

def versionOf (key : Bytes) (items : List Item) : Version :=
  ((lookup key items).map Item.version).getD []

/-- Evict what does not fit, then put the new value in front. -/
def put (server : Server) (key value : Bytes) (items : List Item) : List Item :=
  let kept := Recency.shrink fits items
  Recency.promote Item.key ⟨key, value, incrementVersion server (versionOf key kept)⟩ kept

def get (key : Bytes) (items : List Item) : List Item × GetReply :=
  match lookup key items with
  | some it => (Recency.promote Item.key it items, { status := .ok, value := it.value })
  | none => (items, { status := .noKey })

/-- Merge one entry into a list that fits, with the keys that it invalidates. -/
def merge (entry : Entry) (kept : List Item) : List Item × List Bytes :=
  let v := ofEntries entry.version
  match lookup entry.key kept with
  | none => (⟨entry.key, entry.value, v⟩ :: kept, [])
  | some it =>
      if atMost v it.version then (kept, [])
      else if atMost it.version v then
        (Recency.promote Item.key ⟨entry.key, entry.value, v⟩ kept, [])
      else if entry.value = it.value then
        (Recency.rewrite Item.key entry.key
          (fun _ => { it with version := maximumVersion v it.version }) kept, [])
      else (Recency.remove Item.key entry.key kept, [entry.key])

def propagate (entry : Entry) (items : List Item) : List Item × List Bytes :=
  merge entry (Recency.shrink fits items)

def propagateAll : List Entry → List Item → List Item × List Bytes
  | [], items => (items, [])
  | entry :: rest, items =>
      let merged := propagate fits entry items
      let result := propagateAll rest merged.1
      (result.1, merged.2 ++ result.2)

def invalidate (key : Bytes) (items : List Item) : List Item := Recency.remove Item.key key items

def invalidateAll (keys : List Bytes) (items : List Item) : List Item :=
  keys.foldl (fun items key => invalidate key items) items

def entriesFor (keys : List Bytes) (items : List Item) : List Entry :=
  keys.filterMap fun key =>
    (lookup key items).map fun it => ⟨it.key, it.value, toEntries it.version⟩

end RobustCache.Lru
