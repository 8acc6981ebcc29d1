import RobustCache.Store.Table

/-! # The request handler of a server

`KVStorageHandler` without its mutexes: what each locked section computes. A
section that ends in an exception is an error, as are a failed assertion and an
endless loop.
-/

namespace RobustCache

open Lib

namespace Store

def tally (st : Store) (f : GetStatisticsReply → GetStatisticsReply) : Store :=
  { st with statistics := f st.statistics }

/-- `propagate`: merge one entry of a peer, adding the keys it invalidates to
those given. -/
def propagate (st : Store) (entry : Entry) (invalidatedEntries : List Bytes) :
    Except Fault (Store × List Bytes) := do
  let st ← st.normalizeTable
  let pos ← st.getPosition entry.key
  if (st.slot pos).state = .alive then
    let v := ofEntries entry.version
    if atMost v (st.slot pos).version then
      return (st, invalidatedEntries)
    else if atMost (st.slot pos).version v then
      let st := st.setValue pos entry.value
      let st ← st.accessEntry pos
      return (st.setVersion pos v, invalidatedEntries)
    else if entry.value = (st.slot pos).value then
      return (st.setVersion pos (maximumVersion v (st.slot pos).version), invalidatedEntries)
    else
      let invalidatedEntries := invalidatedEntries ++ [(st.slot pos).key]
      let st ← st.removeEntry pos
      return (st, invalidatedEntries)
  else
    let st ← st.addEntry pos entry.key entry.value (ofEntries entry.version)
    return (st, invalidatedEntries)

/-- The loop of `antiEntropy` over the entries of a query. -/
def propagateAll (st : Store) : List Entry → List Bytes → Except Fault (Store × List Bytes)
  | [], invalidatedEntries => .ok (st, invalidatedEntries)
  | entry :: rest, invalidatedEntries => do
      let (st, invalidatedEntries) ← st.propagate entry invalidatedEntries
      st.propagateAll rest invalidatedEntries

/-- Remove a key that a peer has invalidated. -/
def invalidate (st : Store) (key : Bytes) : Except Fault Store := do
  let pos ← st.getPosition key
  if (st.slot pos).state = .alive then st.removeEntry pos else return st

def invalidateAll (st : Store) : List Bytes → Except Fault Store
  | [] => .ok st
  | key :: rest => do
      let st ← st.invalidate key
      st.invalidateAll rest

/-- The entries that `antiEntropyHandler` sends for a set of keys: those that
are `ALIVE`. -/
def buildEntries (st : Store) : List Bytes → Except Fault (List Entry)
  | [] => .ok []
  | key :: rest => do
      let pos ← st.getPosition key
      let entries ← st.buildEntries rest
      let r := st.slot pos
      if r.state = .alive then return ⟨r.key, r.value, toEntries r.version⟩ :: entries
      else return entries

end Store

structure Handler extends Store where
  server : Server
  currentView : GetServersReply := {}
  diffs : OrderedMap Server (OrderedSet Bytes) := OrderedMap.empty

namespace Handler

/-! ## Requests -/

/-- `diffs[s].insert(key)`. -/
def insertDiff (diffs : OrderedMap Server (OrderedSet Bytes)) (s : Server) (key : Bytes) :
    OrderedMap Server (OrderedSet Bytes) :=
  diffs.alter s fun keys => OrderedSet.add (keys.getD OrderedMap.empty) key

/-- The part of `put`'s locked section before the ring lookup. -/
def putEntry (h : Handler) (key value : Bytes) : Except Fault Handler := do
  let st ← h.normalizeTable
  let pos ← st.getPosition key
  if (st.slot pos).state = .alive then
    let st := st.setValue pos value
    let st := st.setVersion pos (incrementVersion h.server (st.slot pos).version)
    let st := st.tally fun s => { s with numUpdates := s.numUpdates + 1 }
    let st ← st.accessEntry pos
    return { h with toStore := st }
  else
    let st := st.tally fun s => { s with numInsertions := s.numInsertions + 1 }
    let st ← st.addEntry pos key value [(h.server, 1)]
    return { h with toStore := st }

def noteDiffs (h : Handler) (key : Bytes) (servers : List Server) : Handler :=
  let diffs := servers.foldl
    (fun diffs s => if s = h.server then diffs else insertDiff diffs s key) h.diffs
  { h with diffs }

def putLocked (h : Handler) (args : PutArgs) : Except Fault (Handler × PutReply) := do
  let h ← h.putEntry args.key args.value
  let servers ← getServer (irHash args.key) h.currentView.view
  return (h.noteDiffs args.key servers, { status := .ok })

def getLocked (h : Handler) (args : GetArgs) : Except Fault (Handler × GetReply) := do
  let pos ← h.getPosition args.key
  if (h.slot pos).state = .alive then
    let value := (h.slot pos).value
    let st := h.toStore.tally fun s => { s with numGoodGets := s.numGoodGets + 1 }
    let st ← st.accessEntry pos
    return ({ h with toStore := st }, { status := .ok, value })
  else
    let st := h.toStore.tally fun s => { s with numFailedGets := s.numFailedGets + 1 }
    return ({ h with toStore := st }, { status := .noKey })

def antiEntropyLocked (h : Handler) (query : AntiEntropyArgs) :
    Except Fault (Handler × AntiEntropyReply) := do
  let (st, invalidatedEntries) ← h.propagateAll query.entries []
  return ({ h with toStore := st }, { status := .ok, invalidatedEntries })

/-! ## The anti-entropy thread -/

/-- The section that ends when the RPC starts: the first peer with a non-empty
set of keys, and what is sent to it. -/
def snapshot (h : Handler) : Except Fault (Option (Server × AntiEntropyArgs)) :=
  match h.diffs.entries.find? fun e => !e.2.isEmpty with
  | none => .ok none
  | some (peer, keys) => do
      let entries ← h.buildEntries keys.keys
      return some (peer, { entries, viewNum := h.currentView.viewNum })

/-- The section that starts when the RPC has returned. -/
def replyLocked (h : Handler) (peer : Server) (reply : AntiEntropyReply) :
    Except Fault Handler :=
  if reply.status = .ok then do
    let h := { h with diffs := h.diffs.erase peer }
    let st ← h.invalidateAll reply.invalidatedEntries
    return { h with toStore := st }
  else .ok h

/-! ## Views -/

/-- Drop the counters of servers that are no longer in the group. -/
def trimVersion (version : Version) (servers : List Server) : Version :=
  version.filter fun p => p.1 ∈ servers

/-- The two loops of `adjustVersion` over `diffs`: a member of the group without
a set gets every key of the list, and the sets of servers outside the group go. -/
def adjustDiffs (server : Server) (keys : List Bytes) (servers : List Server)
    (diffs : OrderedMap Server (OrderedSet Bytes)) : OrderedMap Server (OrderedSet Bytes) :=
  let diffs := servers.foldl
    (fun diffs s =>
      if ¬ diffs.contains s ∧ s ≠ server then
        keys.foldl (fun diffs key => insertDiff diffs s key) diffs
      else diffs) diffs
  diffs.filter fun s _ => s ∈ servers

/-- `adjustVersion(hashTable[pos].version, servers)`. -/
def adjustVersion (h : Handler) (pos : Int) (servers : List Server) : Handler :=
  let st := h.setVersion pos (trimVersion (h.slot pos).version servers)
  let keys := st.order.map fun pos => (st.slot pos).key
  { h with toStore := st, diffs := adjustDiffs h.server keys servers h.diffs }

/-- The loop of `cleanHash`. It follows `next` of the record it has just
processed, which is that of a fresh record after a removal. -/
def cleanLoop : Nat → Handler → Int → Except Fault Handler
  | 0, _, _ => .error .diverges
  | fuel + 1, h, pos =>
      if pos = -1 then .ok h
      else do
        let supposedServer ← getServer (irHash (h.slot pos).key) h.currentView.view
        if h.server ∈ supposedServer then
          let h := h.adjustVersion pos supposedServer
          cleanLoop fuel h (h.slot pos).next
        else
          let st ← h.removeEntry pos
          let h := { h with
            toStore := st.tally fun s => { s with numPurges := s.numPurges + 1 } }
          cleanLoop fuel h (h.slot pos).next

def cleanHash (h : Handler) : Except Fault Handler :=
  cleanLoop (h.hashTable.size + 1) h h.listHead

def owns (h : Handler) (v : View) (key : Bytes) : Except Fault Bool := do
  let supposedServer ← getServer (irHash key) v
  return decide (h.server ∈ supposedServer)

/-- Assign the current view, and clean the table when its number changes. -/
def adopt (h : Handler) (view : GetServersReply) : Except Fault Handler :=
  let needToClean := h.currentView.viewNum ≠ view.viewNum
  let h := { h with currentView := view }
  if needToClean then h.cleanHash else .ok h

/-- `checkServer`, where `pinged` is what the view service answers if asked. -/
def checkServer (h : Handler) (viewNum : Int) (key : Bytes) (pinged : GetServersReply) :
    Except Fault (Handler × Bool) :=
  if viewNum < h.currentView.viewNum then .ok (h, false)
  else if viewNum > h.currentView.viewNum then do
    let h ← h.adopt pinged
    if viewNum ≠ pinged.viewNum then return (h, false)
    else
      let owned ← h.owns pinged.view key
      return (h, owned)
  else do
    let owned ← h.owns h.currentView.view key
    return (h, owned)

end Handler

end RobustCache
