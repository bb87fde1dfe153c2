/-
# The connection and the writes on it

`FPersistentConnection.m`.  Puts are numbered and kept until they are answered, so that they can be
sent again over the next connection.  As long as a listen has not been answered the answers to puts
are held back (`putsToAck`), for the data of the listen is to come before them.

Whatever is answered and whenever the connection is lost, the block of a put is called at most once,
and until it is called the put is held back or outstanding (`perm_blocks_of_exec`).  If the server
answers in order, the blocks are also called in the order of the puts, provided that whenever the
state is restored nothing is held back or something is listened to, and that no connection is lost
with the put of a transaction on its way, which is given up then (`blocks_of_exec_of_inOrder`).  The
first condition is there because a lost connection forgets the listens that have not been answered,
but not the answers they have held back: if nothing is listened to any more these stay where they
are, and the answers to later puts overtake them (`putsToAck_of_exec`).

A put with a hash is the put of a transaction.  What is done on disconnect is not modelled, nor are
the tokens beyond whether there is one.  An answer is handed its request; request numbers do no
more.  A block that is called asks the connection for nothing while it runs: a callback of a listen
that listens or unlistens at once is no event here.
-/

import Teamstuff.Firebase.Repo

namespace Teamstuff

/-- `ConnectionState`. -/
inductive ConnectionState
  | disconnected
  | gettingToken
  | connecting
  | authenticating
  | connected
deriving DecidableEq

/-- `FOutstandingQuery`: the query, by its path, and which of the listens this is. -/
structure FOutstandingQuery where
  query : FPath
  listen : ℕ
deriving DecidableEq

/-- `kFTransactionDisconnect`. -/
def kFTransactionDisconnect : String := "disconnect"

/-- `FOutstandingPut`, with the action as a part of the request and the hash apart from it. -/
structure FOutstandingPut (δ β : Type) where
  request : δ
  hash : Option String
  onCompleteBlock : β
deriving DecidableEq

/-- What is sent, which determines what is done with the answer. -/
inductive FRequest (δ β : Type)
  | put (index : ℕ) (put : FOutstandingPut δ β)
  | listen (listenSpec : FOutstandingQuery)
  | unlisten (query : FPath)
  | auth (restoreStateAfterComplete : Bool)
  | unauth
deriving DecidableEq

/-- The call of a block. -/
inductive FBlockCall (β : Type)
  | put (onCompleteBlock : β) (status : String)
  | listen (query : FPath) (status : String)

/-- `FPersistentConnection`, with the calls that it has made so far; `requests` are those that have
not been answered on this connection, oldest first, and `sent` has the numbers of the puts whose
flag `sent` is set. -/
structure FPersistentConnection (δ β : Type) where
  connectionState : ConnectionState
  hasAuthToken : Bool
  listens : List FOutstandingQuery
  listenCounter : ℕ
  outstandingPuts : List (ℕ × FOutstandingPut δ β)
  putCounter : ℕ
  sent : List ℕ
  requests : List (FRequest δ β)
  unackedListensCount : ℤ
  putsToAck : List (β × String)
  calls : List (FBlockCall β)

namespace FPersistentConnection

variable {δ β : Type}

/-- `initWithRepoInfo:dispatchQueue:config:`. -/
def init : FPersistentConnection δ β :=
  ⟨.disconnected, false, [], 0, [], 0, [], [], 0, [], []⟩

/-- `connected`. -/
def connected (self : FPersistentConnection δ β) : Bool :=
  self.connectionState = .authenticating || self.connectionState = .connected

/-- `canSendWrites`. -/
def canSendWrites (self : FPersistentConnection δ β) : Bool := self.connectionState = .connected

/-- `sendAction:body:sensitive:callback:`. -/
def sendAction (self : FPersistentConnection δ β) (request : FRequest δ β) :
    FPersistentConnection δ β :=
  { self with requests := self.requests ++ [request] }

/-- `sendPut:`; `none` stands for the assertions. -/
def sendPut (self : FPersistentConnection δ β) (index : ℕ) : Option (FPersistentConnection δ β) :=
  if self.canSendWrites then
    (self.outstandingPuts.lookup index).map fun put =>
      { self with sent := index :: self.sent }.sendAction (.put index put)
  else none

/-- `putInternal:forAction:forPath:withHash:withCallback:`. -/
def putInternal (self : FPersistentConnection δ β) (request : δ) (hash : Option String)
    (onComplete : β) : Option (FPersistentConnection δ β) :=
  let index := self.putCounter
  let put : FOutstandingPut δ β := ⟨request, hash, onComplete⟩
  let self := { self with
    putCounter := index + 1
    outstandingPuts := self.outstandingPuts ++ [(index, put)] }
  if self.canSendWrites then self.sendPut index else some self

/-- `sendListen:`. -/
def sendListen (self : FPersistentConnection δ β) (listenSpec : FOutstandingQuery) :
    FPersistentConnection δ β :=
  { self.sendAction (.listen listenSpec) with unackedListensCount := self.unackedListensCount + 1 }

/-- `listen:tagId:hash:onComplete:`; `none` stands for the assertion. -/
def listen (self : FPersistentConnection δ β) (query : FPath) :
    Option (FPersistentConnection δ β) :=
  if self.listens.any fun outstanding => outstanding.query = query then none
  else
    let outstanding : FOutstandingQuery := ⟨query, self.listenCounter⟩
    let self := { self with
      listens := self.listens ++ [outstanding]
      listenCounter := self.listenCounter + 1 }
    some (if self.connected then self.sendListen outstanding else self)

/-- `removeListen:`. -/
def removeListen (self : FPersistentConnection δ β) (query : FPath) : FPersistentConnection δ β :=
  { self with listens := self.listens.filter fun outstanding => outstanding.query ≠ query }

/-- `unlisten:tagId:`. -/
def unlisten (self : FPersistentConnection δ β) (query : FPath) : FPersistentConnection δ β :=
  let sends := (self.listens.any fun outstanding => outstanding.query = query) && self.connected
  let self := self.removeListen query
  if sends then self.sendAction (.unlisten query) else self

/-- `ackPuts`. -/
def ackPuts (self : FPersistentConnection δ β) : FPersistentConnection δ β :=
  { self with
    calls := self.calls ++ self.putsToAck.map fun put => .put put.1 put.2
    putsToAck := [] }

/-- `purgeOutstandingWrites`. -/
def purgeOutstandingWrites (self : FPersistentConnection δ β) : FPersistentConnection δ β :=
  let self := self.ackPuts
  let puts := self.outstandingPuts.mergeSort fun put other => put.1 ≤ other.1
  { self with
    calls := self.calls ++ puts.map fun put => .put put.2.onCompleteBlock kFErrorWriteCanceled
    outstandingPuts := [] }

/-- `restoreState`, with the listens in the order in which they were asked for, which the source
leaves open; `none` stands for the assertion, and for those of `sendPut:`. -/
def restoreState (self : FPersistentConnection δ β) : Option (FPersistentConnection δ β) :=
  if self.connectionState = .connected then
    let self := self.listens.foldl sendListen self
    let keys := (self.outstandingPuts.map Prod.fst).mergeSort
    keys.foldlM sendPut self
  else none

/-- A put of a transaction that has been sent. -/
def isSentTransaction (self : FPersistentConnection δ β) (put : ℕ × FOutstandingPut δ β) : Bool :=
  put.2.hash.isSome && decide (put.1 ∈ self.sent)

/-- The puts that a lost connection gives up. -/
def sentTransactions (self : FPersistentConnection δ β) : List (ℕ × FOutstandingPut δ β) :=
  self.outstandingPuts.filter self.isSentTransaction

/-- `cancelSentTransactions`, where the dictionary has the numbers in the order of `rank`. -/
def cancelSentTransactions (rank : ℕ → ℕ) (self : FPersistentConnection δ β) :
    FPersistentConnection δ β :=
  let cancelled := self.sentTransactions.mergeSort fun put other => rank put.1 ≤ rank other.1
  { self with
    calls := self.calls ++
      cancelled.map fun put => .put put.2.onCompleteBlock kFTransactionDisconnect
    outstandingPuts := self.outstandingPuts.filter fun put => !self.isSentTransaction put }

/-- `onDisconnect:withReason:`. -/
def onDisconnect (rank : ℕ → ℕ) (self : FPersistentConnection δ β) : FPersistentConnection δ β :=
  { self.cancelSentTransactions rank with
    connectionState := .disconnected
    requests := []
    unackedListensCount := 0 }

/-- `sendAuthAndRestoreStateAfterComplete:`. -/
def sendAuthAndRestoreStateAfterComplete (self : FPersistentConnection δ β)
    (restoreStateAfterComplete : Bool) : FPersistentConnection δ β :=
  self.sendAction (.auth restoreStateAfterComplete)

/-- `onReady:atTime:sessionID:` and `restoreAuth`; `none` stands for the assertion. -/
def onReady (self : FPersistentConnection δ β) : Option (FPersistentConnection δ β) :=
  if self.connectionState = .connecting then
    if self.hasAuthToken then
      some ({ self with connectionState := .authenticating }.sendAuthAndRestoreStateAfterComplete
        true)
    else { self with connectionState := .connected }.restoreState
  else none

/-- `refreshAuthToken:`. -/
def refreshAuthToken (self : FPersistentConnection δ β) (hasAuthToken : Bool) :
    FPersistentConnection δ β :=
  let self := { self with hasAuthToken }
  if self.connected then
    if hasAuthToken then self.sendAuthAndRestoreStateAfterComplete false
    else self.sendAction .unauth
  else self

/-- `onListenRevoked:`. -/
def onListenRevoked (self : FPersistentConnection δ β) (path : FPath) : FPersistentConnection δ β :=
  let queries := self.listens.filter fun outstanding => outstanding.query = path
  let self := self.removeListen path
  { self with
    calls := self.calls ++ queries.map fun outstanding =>
      .listen outstanding.query "permission_denied" }

/-- The callback of `sendPut:`.  No other put gets the number of one that has been removed. -/
def onPutResponse (self : FPersistentConnection δ β) (index : ℕ) (put : FOutstandingPut δ β)
    (status : String) : FPersistentConnection δ β :=
  if (self.outstandingPuts.lookup index).isSome then
    let self := { self with
      outstandingPuts := self.outstandingPuts.filter fun other => other.1 ≠ index }
    if self.unackedListensCount = 0 then
      { self with calls := self.calls ++ [.put put.onCompleteBlock status] }
    else { self with putsToAck := self.putsToAck ++ [(put.onCompleteBlock, status)] }
  else self

/-- What the callback of `sendListen:` does if the listen has not been removed. -/
def onListenStatus (self : FPersistentConnection δ β) (listenSpec : FOutstandingQuery)
    (status : String) : FPersistentConnection δ β :=
  if listenSpec ∈ self.listens then
    let self := if status ≠ kFWPResponseForActionStatusOk then self.removeListen listenSpec.query
      else self
    { self with calls := self.calls ++ [.listen listenSpec.query status] }
  else self

/-- The callback of `sendListen:`; `none` stands for the assertion. -/
def onListenResponse (self : FPersistentConnection δ β) (listenSpec : FOutstandingQuery)
    (status : String) : Option (FPersistentConnection δ β) :=
  let self := self.onListenStatus listenSpec status
  let self := { self with unackedListensCount := self.unackedListensCount - 1 }
  if 0 ≤ self.unackedListensCount then
    some (if self.unackedListensCount = 0 then self.ackPuts else self)
  else none

/-- The callback of `sendAuthAndRestoreStateAfterComplete:`; `close` loses the connection. -/
def onAuthResponse (rank : ℕ → ℕ) (self : FPersistentConnection δ β)
    (restoreStateAfterComplete : Bool) (status : String) : Option (FPersistentConnection δ β) :=
  let self := { self with connectionState := .connected }
  if status = kFWPResponseForActionStatusOk then
    if restoreStateAfterComplete then self.restoreState else some self
  else some (onDisconnect rank { self with hasAuthToken := false })

/-- The callback of a request. -/
def onResponse (rank : ℕ → ℕ) (self : FPersistentConnection δ β) (status : String) :
    FRequest δ β → Option (FPersistentConnection δ β)
  | .put index put => some (self.onPutResponse index put status)
  | .listen listenSpec => self.onListenResponse listenSpec status
  | .unlisten _ => some self
  | .auth restoreStateAfterComplete => self.onAuthResponse rank restoreStateAfterComplete status
  | .unauth => some self

/-- `onDataMessage:withMessage:`, for the answer to a request. -/
def onDataMessage (rank : ℕ → ℕ) (self : FPersistentConnection δ β) (request : ℕ)
    (status : String) : Option (FPersistentConnection δ β) :=
  match self.requests[request]? with
  | some answered =>
      onResponse rank { self with requests := self.requests.eraseIdx request } status answered
  | none => some self

/-- What can happen to a connection. -/
inductive Event (δ β : Type)
  | putInternal (request : δ) (hash : Option String) (onComplete : β)
  | listen (query : FPath)
  | unlisten (query : FPath)
  | purgeOutstandingWrites
  | tryScheduleReconnect
  | openNetworkConnectionWithToken (hasAuthToken : Bool)
  | onReady
  | onDataMessage (request : ℕ) (status : String)
  | onListenRevoked (path : FPath)
  | refreshAuthToken (hasAuthToken : Bool)
  | onDisconnect

/-- `none` stands for a failed assertion.  A number is given up once at most, so one `rank` says
for all lost connections in which order the puts are given up. -/
def step (rank : ℕ → ℕ) (self : FPersistentConnection δ β) :
    Event δ β → Option (FPersistentConnection δ β)
  | .putInternal request hash onComplete => self.putInternal request hash onComplete
  | .listen query => self.listen query
  | .unlisten query => some (self.unlisten query)
  | .purgeOutstandingWrites => some self.purgeOutstandingWrites
  | .tryScheduleReconnect =>
      if self.connectionState = .disconnected then
        some { self with connectionState := .gettingToken }
      else none
  | .openNetworkConnectionWithToken hasAuthToken =>
      if self.connectionState = .gettingToken then
        some { self with hasAuthToken, connectionState := .connecting }
      else none
  | .onReady => self.onReady
  | .onDataMessage request status => self.onDataMessage rank request status
  | .onListenRevoked path => some (self.onListenRevoked path)
  | .refreshAuthToken hasAuthToken => some (self.refreshAuthToken hasAuthToken)
  | .onDisconnect => some (self.onDisconnect rank)

end FPersistentConnection

/-! ### The puts and their blocks -/

/-- The block of a put that is called. -/
def FBlockCall.putBlock {β : Type} : FBlockCall β → Option β
  | .put onCompleteBlock _ => some onCompleteBlock
  | .listen _ _ => none

/-- The number of a put that is sent. -/
def FRequest.putIndex {δ β : Type} : FRequest δ β → Option ℕ
  | .put index _ => some index
  | _ => none

def FRequest.isListen {δ β : Type} : FRequest δ β → Bool
  | .listen _ => true
  | _ => false

def FRequest.isAuth {δ β : Type} : FRequest δ β → Bool
  | .auth _ => true
  | _ => false

namespace FPersistentConnection

variable {δ β : Type} {rank : ℕ → ℕ} {self : FPersistentConnection δ β}

/-- The blocks that an event hands over. -/
def Event.blocks : Event δ β → List β
  | .putInternal _ _ onComplete => [onComplete]
  | _ => []

/-- The blocks of the puts that have been called. -/
def putCalls (self : FPersistentConnection δ β) : List β := self.calls.filterMap FBlockCall.putBlock

/-- The blocks of all puts: those that have been called, those held back and the others. -/
def blocks (self : FPersistentConnection δ β) : List β :=
  self.putCalls ++ self.putsToAck.map Prod.fst ++
    self.outstandingPuts.map fun put => put.2.onCompleteBlock

/-- The puts are in the order of their numbers, a request for a put has that put, and the listens
that have not been answered are counted. -/
structure WF (connection : FPersistentConnection δ β) : Prop where
  count : connection.unackedListensCount = connection.requests.countP FRequest.isListen
  sorted : (connection.outstandingPuts.map Prod.fst).Pairwise (· < ·)
  lt : ∀ k ∈ connection.outstandingPuts.map Prod.fst, k < connection.putCounter
  put : ∀ index put, .put index put ∈ connection.requests → index < connection.putCounter ∧
    ∀ other, (index, other) ∈ connection.outstandingPuts → other = put

/-- A new connection. -/
theorem WF.init : (init : FPersistentConnection δ β).WF :=
  ⟨rfl, .nil, fun _ hk => absurd hk List.not_mem_nil, fun _ _ h => absurd h List.not_mem_nil⟩

/-- No two puts have one number. -/
theorem WF.nodup (h : self.WF) : (self.outstandingPuts.map Prod.fst).Nodup :=
  h.sorted.imp fun hlt => hlt.ne

/-- All listens are sent, in their order. -/
theorem foldl_sendListen (listens : List FOutstandingQuery) :
    listens.foldl sendListen self =
      { self with
        requests := self.requests ++ listens.map .listen
        unackedListensCount := self.unackedListensCount + listens.length } := by
  induction listens generalizing self with
  | nil => simp
  | cons listenSpec listens ih =>
      rw [List.foldl_cons, ih, sendListen, sendAction]
      simp only [List.map_cons, List.append_assoc, List.singleton_append, List.length_cons]
      congr 1
      omega

/-- All puts are sent, in their order, if they are there. -/
theorem foldlM_sendPut {puts : List (ℕ × FOutstandingPut δ β)}
    (hsend : self.canSendWrites = true)
    (hputs : ∀ put ∈ puts, self.outstandingPuts.lookup put.1 = some put.2) :
    (puts.map Prod.fst).foldlM sendPut self =
      some { self with
        sent := (puts.map Prod.fst).reverse ++ self.sent
        requests := self.requests ++ puts.map fun put => .put put.1 put.2 } := by
  induction puts generalizing self with
  | nil => simp
  | cons put puts ih =>
      obtain ⟨hput, hrest⟩ := List.forall_mem_cons.1 hputs
      have hsent : (sendAction { self with sent := put.1 :: self.sent }
        (.put put.1 put.2)).canSendWrites = true := hsend
      rw [List.map_cons, List.foldlM_cons, sendPut, if_pos hsend, hput, Option.map_some,
        Option.bind_eq_bind, Option.bind_some, ih hsent hrest, sendAction]
      simp only [List.map_cons, List.append_assoc, List.singleton_append, List.reverse_cons]

/-- **The state is restored**: the listens are sent, and then the puts in their order. -/
theorem restoreState_eq (h : self.WF) (hconnected : self.connectionState = .connected) :
    self.restoreState = some { self with
      sent := (self.outstandingPuts.map Prod.fst).reverse ++ self.sent
      requests := self.requests ++ self.listens.map .listen ++
        self.outstandingPuts.map fun put => .put put.1 put.2
      unackedListensCount := self.unackedListensCount + self.listens.length } := by
  have hsort : (self.outstandingPuts.map Prod.fst).mergeSort =
      self.outstandingPuts.map Prod.fst :=
    List.mergeSort_of_pairwise (h.sorted.imp fun hlt => decide_eq_true hlt.le)
  rw [restoreState, if_pos hconnected, foldl_sendListen]
  dsimp only
  rw [hsort]
  refine foldlM_sendPut (by rw [canSendWrites]; simpa using hconnected) fun put hput => ?_
  exact Assoc.lookup_eq_some_of_mem h.nodup hput

/-! ### No block is called twice -/

/-- The calls of blocks with their statuses call these blocks. -/
theorem filterMap_putBlock {α : Type} (puts : List α) (onCompleteBlock : α → β)
    (status : α → String) :
    (puts.map fun put => FBlockCall.put (onCompleteBlock put) (status put)).filterMap
      FBlockCall.putBlock = puts.map onCompleteBlock := by
  rw [List.filterMap_map, ← List.filterMap_eq_map]
  rfl

/-- What is held back is called before what is not answered. -/
theorem blocks_ackPuts : self.ackPuts.blocks = self.blocks := by
  rw [blocks, blocks, putCalls, putCalls, ackPuts, List.filterMap_append, filterMap_putBlock,
    List.map_nil, List.append_nil]

/-- Nothing is held back any longer. -/
theorem WF.ackPuts (h : self.WF) : self.ackPuts.WF := ⟨h.count, h.sorted, h.lt, h.put⟩

/-- The puts that are taken back are called in their order. -/
theorem blocks_purgeOutstandingWrites (h : self.WF) :
    self.purgeOutstandingWrites.blocks = self.blocks := by
  have hsort : self.outstandingPuts.mergeSort (fun put other => put.1 ≤ other.1) =
      self.outstandingPuts := by
    refine List.mergeSort_of_pairwise ?_
    exact (List.pairwise_map.1 h.sorted).imp fun hlt => decide_eq_true hlt.le
  rw [purgeOutstandingWrites]
  dsimp only [FPersistentConnection.ackPuts]
  rw [hsort, blocks, blocks, putCalls, putCalls]
  simp only [List.filterMap_append, filterMap_putBlock, List.map_nil, List.append_nil]

/-- No put is outstanding any longer. -/
theorem WF.purgeOutstandingWrites (h : self.WF) : self.purgeOutstandingWrites.WF :=
  ⟨h.count, .nil, fun _ hk => absurd hk List.not_mem_nil, fun index put hmem =>
    ⟨(h.put index put hmem).1, fun _ hother => absurd hother List.not_mem_nil⟩⟩

/-- A put is sent at once or later. -/
theorem putInternal_eq (h : self.WF) (request : δ) (hash : Option String) (onComplete : β) :
    self.putInternal request hash onComplete = some { self with
      putCounter := self.putCounter + 1
      outstandingPuts := self.outstandingPuts ++ [(self.putCounter, ⟨request, hash, onComplete⟩)]
      sent := if self.canSendWrites then self.putCounter :: self.sent else self.sent
      requests := self.requests ++ if self.canSendWrites then
        [.put self.putCounter ⟨request, hash, onComplete⟩] else [] } := by
  have hnone : self.outstandingPuts.lookup self.putCounter = none :=
    Assoc.lookup_eq_none_iff.2 fun put hmem =>
      absurd (h.lt _ (List.mem_map_of_mem hmem)) (lt_irrefl _)
  rw [putInternal]
  cases hsend : self.canSendWrites with
  | false =>
      rw [canSendWrites] at hsend
      simp [canSendWrites, hsend]
  | true =>
      rw [canSendWrites] at hsend
      simp [canSendWrites, sendPut, sendAction, hsend, List.lookup_append, hnone]

/-- **Giving up the puts of transactions** calls their blocks. -/
theorem perm_blocks_cancelSentTransactions :
    (self.cancelSentTransactions rank).blocks.Perm self.blocks := by
  have hsplit : (self.sentTransactions ++
      self.outstandingPuts.filter fun put => !self.isSentTransaction put).Perm
        self.outstandingPuts := List.filter_append_perm _ _
  have hsort := List.mergeSort_perm self.sentTransactions fun put other =>
    decide (rank put.1 ≤ rank other.1)
  have hblocks := ((hsort.append_right _).trans hsplit).map fun put => put.2.onCompleteBlock
  rw [List.map_append] at hblocks
  rw [cancelSentTransactions, blocks, blocks, putCalls, putCalls]
  dsimp only
  rw [List.filterMap_append, filterMap_putBlock, List.append_assoc, List.append_assoc,
    List.append_assoc]
  refine List.Perm.append_left _ ?_
  rw [← List.append_assoc]
  exact (List.perm_append_comm.append_right _).trans
    ((List.append_assoc _ _ _).symm ▸ hblocks.append_left _)

/-- Where there is no such put nothing is given up. -/
theorem cancelSentTransactions_of_nil (h : self.sentTransactions = []) :
    self.cancelSentTransactions rank = self := by
  have hkept : (self.outstandingPuts.filter fun put => !self.isSentTransaction put) =
      self.outstandingPuts := by
    refine List.filter_eq_self.2 fun put hmem => ?_
    rw [Bool.not_eq_true', ← Bool.not_eq_true]
    exact List.filter_eq_nil_iff.1 h put hmem
  rw [cancelSentTransactions, hkept, h]
  simp

/-- The connection is lost. -/
theorem WF.onDisconnect (h : self.WF) (rank : ℕ → ℕ) : (self.onDisconnect rank).WF :=
  ⟨rfl, h.sorted.sublist (List.filter_sublist.map _),
    fun k hk => h.lt k ((List.filter_sublist.map _).subset hk),
    fun _ _ hmem => absurd hmem List.not_mem_nil⟩

/-- A lost connection neither adds nor loses a block. -/
theorem perm_blocks_onDisconnect : (self.onDisconnect rank).blocks.Perm self.blocks :=
  perm_blocks_cancelSentTransactions

/-- It keeps their order if no transaction is on its way. -/
theorem blocks_onDisconnect (h : self.sentTransactions = []) :
    (self.onDisconnect rank).blocks = self.blocks := by
  rw [onDisconnect, cancelSentTransactions_of_nil h]
  rfl

/-- The listens that are counted and not to be answered. -/
def uncounted (self : FPersistentConnection δ β) : ℤ :=
  self.unackedListensCount - self.requests.countP FRequest.isListen

/-- The count is not negative. -/
theorem WF.nonneg (h : self.WF) : 0 ≤ self.unackedListensCount := by
  rw [h.count]
  exact Int.natCast_nonneg _

/-- Every listen that is counted is to be answered. -/
theorem WF.uncounted (h : self.WF) : self.uncounted = 0 := Int.sub_eq_zero.2 h.count

/-- From one connection to the other the puts have only been sent. -/
structure SamePuts (before after : FPersistentConnection δ β) : Prop where
  outstandingPuts : after.outstandingPuts = before.outstandingPuts
  putCounter : after.putCounter = before.putCounter
  putsToAck : after.putsToAck = before.putsToAck
  putCalls : after.putCalls = before.putCalls
  uncounted : after.uncounted = before.uncounted
  requests : ∀ index put, .put index put ∈ after.requests →
    .put index put ∈ before.requests ∨ (index, put) ∈ before.outstandingPuts

variable {next last : FPersistentConnection δ β}

/-- Nothing has happened. -/
theorem SamePuts.refl : SamePuts self self :=
  ⟨.refl _, .refl _, .refl _, .refl _, .refl _, fun _ _ => .inl⟩

/-- First one thing and then another. -/
theorem SamePuts.trans (h : SamePuts self next) (h' : SamePuts next last) : SamePuts self last where
  outstandingPuts := h'.outstandingPuts.trans h.outstandingPuts
  putCounter := h'.putCounter.trans h.putCounter
  putsToAck := h'.putsToAck.trans h.putsToAck
  putCalls := h'.putCalls.trans h.putCalls
  uncounted := h'.uncounted.trans h.uncounted
  requests index put hmem := by
    rcases h'.requests index put hmem with hmem | hmem
    · exact h.requests index put hmem
    · exact .inr (h.outstandingPuts ▸ hmem)

/-- No block is called or handed over. -/
theorem SamePuts.blocks (h : SamePuts self next) : next.blocks = self.blocks := by
  rw [FPersistentConnection.blocks, FPersistentConnection.blocks, h.putCalls, h.putsToAck,
    h.outstandingPuts]

/-- The invariant is kept. -/
theorem SamePuts.wf (h : SamePuts self next) (hself : self.WF) : next.WF := by
  refine ⟨Int.sub_eq_zero.1 (h.uncounted.trans hself.uncounted),
    h.outstandingPuts ▸ hself.sorted, ?_, fun index put hmem => ?_⟩
  · rw [h.outstandingPuts, h.putCounter]
    exact hself.lt
  rw [h.outstandingPuts, h.putCounter]
  rcases h.requests index put hmem with hmem | hmem
  · exact hself.put index put hmem
  · refine ⟨hself.lt index (List.mem_map_of_mem hmem), fun other hother => ?_⟩
    exact Option.some.inj ((Assoc.lookup_eq_some_of_mem hself.nodup hother).symm.trans
      (Assoc.lookup_eq_some_of_mem hself.nodup hmem))

/-- A request that is no put. -/
theorem SamePuts.send (h : SamePuts self next) (request : FRequest δ β)
    (hput : request.putIndex = none) {count : ℤ}
    (hcount : count = next.unackedListensCount + [request].countP FRequest.isListen) :
    SamePuts self { next with
      requests := next.requests ++ [request]
      unackedListensCount := count } := by
  refine ⟨h.outstandingPuts, h.putCounter, h.putsToAck, h.putCalls, ?_, fun index put hmem => ?_⟩
  · rw [← h.uncounted, FPersistentConnection.uncounted, FPersistentConnection.uncounted,
      List.countP_append, hcount, Nat.cast_add]
    exact Int.add_sub_add_right _ _ _
  rcases List.mem_append.1 hmem with hmem | hmem
  · exact h.requests index put hmem
  · rw [← List.mem_singleton.1 hmem] at hput
    cases hput

/-- What is sent when the state is restored. -/
theorem countP_restored (requests : List (FRequest δ β)) (listens : List FOutstandingQuery)
    (puts : List (ℕ × FOutstandingPut δ β)) :
    (requests ++ listens.map FRequest.listen ++
      puts.map fun put : ℕ × FOutstandingPut δ β => FRequest.put put.1 put.2).countP
        FRequest.isListen = requests.countP FRequest.isListen + listens.length := by
  have hlistens : (listens.map (.listen (β := β) (δ := δ))).countP FRequest.isListen =
      listens.length := by
    rw [List.countP_map]
    exact List.countP_eq_length.2 fun _ _ => rfl
  have hputs : (puts.map fun put => FRequest.put put.1 put.2).countP FRequest.isListen = 0 := by
    rw [List.countP_map]
    exact List.countP_eq_zero.2 fun _ _ => Bool.false_ne_true
  rw [List.countP_append, List.countP_append, hlistens, hputs, Nat.add_zero]

/-- **Restoring the state** sends what is outstanding, once the connection is there. -/
theorem SamePuts.restoreState (h : SamePuts self next) (hself : self.WF)
    (hconnected : next.connectionState = .connected) :
    ∃ last, next.restoreState = some last ∧ SamePuts self last := by
  have hrestored := restoreState_eq (h.wf hself) hconnected
  refine ⟨_, hrestored, h.trans ⟨rfl, rfl, rfl, rfl, ?_, fun index put hmem => ?_⟩⟩
  · rw [FPersistentConnection.uncounted, countP_restored, Nat.cast_add]
    exact Int.add_sub_add_right _ _ _
  rcases List.mem_append.1 hmem with hmem | hmem
  · rcases List.mem_append.1 hmem with hmem | hmem
    · exact .inl hmem
    · obtain ⟨_, -, heq⟩ := List.mem_map.1 hmem
      cases heq
  · obtain ⟨other, hother, heq⟩ := List.mem_map.1 hmem
    cases heq
    exact .inr hother

/-- A query that is not listened to yet. -/
theorem samePuts_listen {query : FPath}
    (hnew : ∀ outstanding ∈ self.listens, outstanding.query ≠ query) :
    ∃ next, self.listen query = some next ∧ SamePuts self next := by
  have hnone : ¬ self.listens.any (fun outstanding => outstanding.query = query) = true := by
    simpa using hnew
  have hadded : SamePuts self { self with
      listens := self.listens ++ [⟨query, self.listenCounter⟩]
      listenCounter := self.listenCounter + 1 } := ⟨rfl, rfl, rfl, rfl, rfl, fun _ _ => .inl⟩
  rw [listen, if_neg hnone]
  refine ⟨_, rfl, ?_⟩
  split
  · exact hadded.send (.listen ⟨query, self.listenCounter⟩) rfl rfl
  · exact hadded

/-- A query that is listened to no longer. -/
theorem samePuts_unlisten (query : FPath) : SamePuts self (self.unlisten query) := by
  have hremoved : SamePuts self (self.removeListen query) :=
    ⟨rfl, rfl, rfl, rfl, rfl, fun _ _ => .inl⟩
  rw [unlisten]
  split
  · exact hremoved.send (.unlisten query) rfl (Int.add_zero _).symm
  · exact hremoved

/-- The connection is there. -/
theorem samePuts_onReady (h : self.WF) (hstate : self.connectionState = .connecting) :
    ∃ next, self.onReady = some next ∧ SamePuts self next := by
  have hstarted : ∀ state, SamePuts self { self with connectionState := state } :=
    fun _ => ⟨rfl, rfl, rfl, rfl, rfl, fun _ _ => .inl⟩
  rw [onReady, if_pos hstate]
  split
  · exact ⟨_, rfl, (hstarted .authenticating).send (.auth true) rfl (Int.add_zero _).symm⟩
  · exact (hstarted .connected).restoreState h rfl

/-- There is another token, or none. -/
theorem samePuts_refreshAuthToken (hasAuthToken : Bool) :
    SamePuts self (self.refreshAuthToken hasAuthToken) := by
  have hrefreshed : SamePuts self { self with hasAuthToken } :=
    ⟨rfl, rfl, rfl, rfl, rfl, fun _ _ => .inl⟩
  rw [refreshAuthToken]
  split
  · split
    · exact hrefreshed.send (.auth false) rfl (Int.add_zero _).symm
    · exact hrefreshed.send .unauth rfl (Int.add_zero _).symm
  · exact hrefreshed

/-- A listen is revoked. -/
theorem samePuts_onListenRevoked (path : FPath) : SamePuts self (self.onListenRevoked path) := by
  have hnone : ∀ queries : List FOutstandingQuery, (queries.map fun outstanding =>
      FBlockCall.listen (β := β) outstanding.query "permission_denied").filterMap
        FBlockCall.putBlock = [] := by
    intro queries
    rw [List.filterMap_map, List.filterMap_eq_nil_iff]
    exact fun _ _ => rfl
  refine ⟨rfl, rfl, rfl, ?_, rfl, fun _ _ => .inl⟩
  rw [putCalls, putCalls, onListenRevoked, List.filterMap_append, hnone, List.append_nil]
  rfl

/-- A listen is answered. -/
theorem samePuts_onListenStatus (listenSpec : FOutstandingQuery) (status : String) :
    SamePuts self (self.onListenStatus listenSpec status) := by
  rw [onListenStatus]
  split
  · have hcalls : (self.calls ++ [FBlockCall.listen listenSpec.query status]).filterMap
        FBlockCall.putBlock = self.calls.filterMap FBlockCall.putBlock := by
      rw [List.filterMap_append]
      exact List.append_nil _
    dsimp only
    split
    · exact ⟨rfl, rfl, rfl, hcalls, rfl, fun _ _ => .inl⟩
    · exact ⟨rfl, rfl, rfl, hcalls, rfl, fun _ _ => .inl⟩
  · exact .refl

/-- The answer to a token: the state is restored, or the connection is lost. -/
theorem exists_onAuthResponse (h : self.WF) (rank : ℕ → ℕ) (restoreStateAfterComplete : Bool)
    (status : String) :
    ∃ next, self.onAuthResponse rank restoreStateAfterComplete status = some next ∧ next.WF ∧
      next.blocks.Perm self.blocks ∧
        ((status ≠ kFWPResponseForActionStatusOk → self.sentTransactions = []) →
          next.blocks = self.blocks) := by
  have hconnected : SamePuts self { self with connectionState := .connected } :=
    ⟨rfl, rfl, rfl, rfl, rfl, fun _ _ => .inl⟩
  have hkept : ∀ {next : FPersistentConnection δ β}, SamePuts self next → next.WF ∧
      next.blocks.Perm self.blocks ∧
        ((status ≠ kFWPResponseForActionStatusOk → self.sentTransactions = []) →
          next.blocks = self.blocks) :=
    fun hnext => ⟨hnext.wf h, .of_eq hnext.blocks, fun _ => hnext.blocks⟩
  rw [onAuthResponse]
  split
  · split
    · obtain ⟨next, hnext, hsent⟩ := hconnected.restoreState h rfl
      exact ⟨next, hnext, hkept hsent⟩
    · exact ⟨_, rfl, hkept hconnected⟩
  · next hstatus =>
      have hWF : WF { self with connectionState := .connected, hasAuthToken := false } :=
        ⟨h.count, h.sorted, h.lt, h.put⟩
      refine ⟨_, rfl, hWF.onDisconnect rank, perm_blocks_onDisconnect, fun hnil => ?_⟩
      have hsame : sentTransactions { self with
          connectionState := .connected, hasAuthToken := false } = [] := hnil hstatus
      exact blocks_onDisconnect hsame

/-- Removing a number from the puts removes its put. -/
theorem filter_cons_eq {puts : List (ℕ × FOutstandingPut δ β)} {index : ℕ}
    {put : FOutstandingPut δ β} (hnodup : (((index, put) :: puts).map Prod.fst).Nodup) :
    ((index, put) :: puts).filter (fun other => other.1 ≠ index) = puts := by
  rw [List.filter_cons_of_neg (by simp)]
  refine List.filter_eq_self.2 fun other hmem => decide_eq_true fun heq => ?_
  exact (List.nodup_cons.1 hnodup).1 (List.mem_map.2 ⟨other, hmem, heq⟩)

/-- A put and the others. -/
theorem perm_cons_filter {puts : List (ℕ × FOutstandingPut δ β)} {index : ℕ}
    {put : FOutstandingPut δ β} (hnodup : (puts.map Prod.fst).Nodup) (hmem : (index, put) ∈ puts) :
    puts.Perm ((index, put) :: puts.filter fun other => other.1 ≠ index) := by
  induction puts with
  | nil => cases hmem
  | cons other puts ih =>
      rcases List.mem_cons.1 hmem with heq | hmem
      · subst heq
        rw [filter_cons_eq hnodup]
      · obtain ⟨hother, hrest⟩ := List.nodup_cons.1 hnodup
        have hne : other.1 ≠ index := fun heq =>
          hother (List.mem_map.2 ⟨(index, put), hmem, heq.symm⟩)
        rw [List.filter_cons_of_pos (by simpa using hne)]
        exact ((ih hrest hmem).cons other).trans (.swap _ _ _)

/-- **The answer to a put** has its block called or held back, unless that has happened before. -/
theorem perm_blocks_onPutResponse (h : self.WF) {index : ℕ} {put : FOutstandingPut δ β}
    (hput : ∀ other, (index, other) ∈ self.outstandingPuts → other = put) (status : String) :
    (self.onPutResponse index put status).blocks.Perm self.blocks := by
  rw [onPutResponse]
  split
  · next hsome =>
      obtain ⟨other, hother⟩ := Option.isSome_iff_exists.1 hsome
      have hmem := Assoc.mem_of_lookup hother
      obtain rfl := hput other hmem
      have hperm := (perm_cons_filter h.nodup hmem).map fun put => put.2.onCompleteBlock
      rw [List.map_cons] at hperm
      dsimp only
      split
      · rw [blocks, blocks, putCalls, putCalls, List.filterMap_append, List.append_assoc,
          List.append_assoc, List.append_assoc]
        exact (List.perm_middle.symm.trans (hperm.symm.append_left _)).append_left _
      · rw [blocks, blocks, putCalls, putCalls, List.map_append, List.append_assoc,
          List.append_assoc, List.append_assoc]
        exact (hperm.symm.append_left _).append_left _
  · exact .refl _

/-- The answer to a put. -/
theorem WF.onPutResponse (h : self.WF) (index : ℕ) (put : FOutstandingPut δ β)
    (status : String) : (self.onPutResponse index put status).WF := by
  have hfilter : { self with
      outstandingPuts := self.outstandingPuts.filter fun other => other.1 ≠ index }.WF :=
    ⟨h.count, h.sorted.sublist (List.filter_sublist.map _),
      fun k hk => h.lt k ((List.filter_sublist.map _).subset hk),
      fun index' put' hmem => ⟨(h.put index' put' hmem).1, fun other hother =>
        (h.put index' put' hmem).2 other (List.mem_of_mem_filter hother)⟩⟩
  rw [FPersistentConnection.onPutResponse]
  split
  · dsimp only
    split
    · exact ⟨hfilter.count, hfilter.sorted, hfilter.lt, hfilter.put⟩
    · exact ⟨hfilter.count, hfilter.sorted, hfilter.lt, hfilter.put⟩
  · exact h

/-- The answer to a listen does not look at the requests. -/
theorem onListenStatus_requests (requests : List (FRequest δ β)) (listenSpec : FOutstandingQuery)
    (status : String) :
    onListenStatus { self with requests } listenSpec status =
      { self.onListenStatus listenSpec status with requests } := by
  rw [onListenStatus, onListenStatus]
  split
  · dsimp only
    split
    · rfl
    · rfl
  · rfl

/-- It does not look at the count either. -/
theorem onListenStatus_unackedListensCount (listenSpec : FOutstandingQuery) (status : String) :
    (self.onListenStatus listenSpec status).unackedListensCount = self.unackedListensCount := by
  rw [onListenStatus]
  split
  · dsimp only
    split
    · rfl
    · rfl
  · rfl

/-- A request less, and a listen less if it was one. -/
theorem countP_eraseIdx {requests : List (FRequest δ β)} {request : ℕ} {answered : FRequest δ β}
    (hanswered : requests[request]? = some answered) :
    requests.countP FRequest.isListen =
      (requests.eraseIdx request).countP FRequest.isListen + answered.isListen.toNat := by
  obtain ⟨hlt, rfl⟩ := List.getElem?_eq_some_iff.1 hanswered
  rw [← (List.getElem_cons_eraseIdx_perm hlt).countP_eq, List.countP_cons]
  cases requests[request].isListen <;> rfl

/-- An answer to anything but a listen. -/
theorem samePuts_eraseIdx {request : ℕ} {answered : FRequest δ β}
    (hanswered : self.requests[request]? = some answered) (hlisten : answered.isListen = false) :
    SamePuts self { self with requests := self.requests.eraseIdx request } := by
  refine ⟨rfl, rfl, rfl, rfl, ?_, fun _ _ hmem => .inl (List.mem_of_mem_eraseIdx hmem)⟩
  rw [uncounted, uncounted, countP_eraseIdx hanswered, hlisten]
  rfl

/-- The event can change the order of the blocks: it answers a put, or the connection is lost with
the put of a transaction on its way. -/
def MayReorder (connection : FPersistentConnection δ β) : Event δ β → Prop
  | .onDataMessage request status => ∃ answered, connection.requests[request]? = some answered ∧
      (answered.putIndex ≠ none ∨ answered.isAuth = true ∧
        status ≠ kFWPResponseForActionStatusOk ∧ connection.sentTransactions ≠ [])
  | .onDisconnect => connection.sentTransactions ≠ []
  | _ => False

/-- **An answer** leads on, and it neither adds nor loses a block. -/
theorem exists_onDataMessage (h : self.WF) (request : ℕ) (status : String) :
    ∃ next, self.onDataMessage rank request status = some next ∧ next.WF ∧
      next.blocks.Perm self.blocks ∧
        (¬ self.MayReorder (.onDataMessage request status) → next.blocks = self.blocks) := by
  rw [onDataMessage]
  split
  · next answered hanswered =>
      have hmem := List.mem_of_getElem? hanswered
      have hkept : ∀ {next : FPersistentConnection δ β}, SamePuts self next → next.WF ∧
          next.blocks.Perm self.blocks ∧
            (¬ self.MayReorder (.onDataMessage request status) → next.blocks = self.blocks) :=
        fun hnext => ⟨hnext.wf h, .of_eq hnext.blocks, fun _ => hnext.blocks⟩
      have hremoved := samePuts_eraseIdx hanswered
      cases answered with
      | put index put =>
          have hWF := (hremoved rfl).wf h
          exact ⟨_, rfl, hWF.onPutResponse index put status,
            perm_blocks_onPutResponse hWF (h.put index put hmem).2 status,
            fun hnot => absurd ⟨_, hanswered, .inl (Option.some_ne_none index)⟩ hnot⟩
      | listen listenSpec =>
          have hlisten : SamePuts self (self.onListenStatus listenSpec status) :=
            samePuts_onListenStatus listenSpec status
          have hsame : (self.onListenStatus listenSpec status).unackedListensCount =
              self.unackedListensCount := onListenStatus_unackedListensCount listenSpec status
          have hanswer : SamePuts self { self.onListenStatus listenSpec status with
              requests := self.requests.eraseIdx request
              unackedListensCount :=
                (self.onListenStatus listenSpec status).unackedListensCount - 1 } := by
            refine ⟨hlisten.outstandingPuts, hlisten.putCounter, hlisten.putsToAck,
              hlisten.putCalls, ?_, fun _ _ hmem => .inl (List.mem_of_mem_eraseIdx hmem)⟩
            rw [uncounted, uncounted, countP_eraseIdx hanswered, hsame]
            dsimp only [FRequest.isListen, Bool.toNat_true]
            omega
          have hwf := hanswer.wf h
          have hnonneg : 0 ≤ (self.onListenStatus listenSpec status).unackedListensCount - 1 :=
            hwf.nonneg
          rw [onResponse, onListenResponse, onListenStatus_requests]
          dsimp only
          rw [if_pos hnonneg]
          refine ⟨_, rfl, ?_⟩
          split
          · exact ⟨hwf.ackPuts, .of_eq (blocks_ackPuts.trans hanswer.blocks),
              fun _ => blocks_ackPuts.trans hanswer.blocks⟩
          · exact hkept hanswer
      | unlisten _ => exact ⟨_, rfl, hkept (hremoved rfl)⟩
      | auth restoreStateAfterComplete =>
          obtain ⟨next, hnext, hWF, hperm, hblocks⟩ := exists_onAuthResponse
            ((hremoved rfl).wf h) rank restoreStateAfterComplete status
          refine ⟨next, hnext, hWF, hperm, fun hnot => hblocks fun hstatus => ?_⟩
          by_contra hsent
          exact hnot ⟨_, hanswered, .inr ⟨rfl, hstatus, hsent⟩⟩
      | unauth => exact ⟨_, rfl, hkept (hremoved rfl)⟩
  · exact ⟨_, rfl, h, .refl _, fun _ => rfl⟩

/-- A new put, which may have been sent. -/
theorem WF.putInternal (h : self.WF) (request : δ) (hash : Option String) (onComplete : β)
    (sent : List ℕ) (requests : List (FRequest δ β))
    (hrequests : ∀ sent ∈ requests, sent = .put self.putCounter ⟨request, hash, onComplete⟩) :
    WF { self with
      putCounter := self.putCounter + 1
      outstandingPuts := self.outstandingPuts ++ [(self.putCounter, ⟨request, hash, onComplete⟩)]
      sent := sent
      requests := self.requests ++ requests } := by
  have hnew : ∀ put, (self.putCounter, put) ∉ self.outstandingPuts := fun put hmem =>
    absurd (h.lt _ (List.mem_map_of_mem hmem)) (lt_irrefl _)
  refine ⟨?_, ?_, fun k hk => ?_, fun index put hmem => ?_⟩
  · dsimp only
    have hnone : requests.countP FRequest.isListen = 0 := by
      refine List.countP_eq_zero.2 fun sent hmem => ?_
      rw [hrequests sent hmem]
      exact Bool.false_ne_true
    rw [List.countP_append, h.count, hnone, Nat.add_zero]
  · rw [List.map_append, List.pairwise_append]
    refine ⟨h.sorted, List.pairwise_singleton _ _, fun k hk k' hk' => ?_⟩
    rw [List.mem_singleton.1 hk']
    exact h.lt k hk
  · rw [List.map_append] at hk
    rcases List.mem_append.1 hk with hk | hk
    · exact Nat.lt_succ_of_lt (h.lt k hk)
    · rw [List.mem_singleton.1 hk]
      exact Nat.lt_succ_self _
  rcases List.mem_append.1 hmem with hmem | hmem
  · obtain ⟨hlt, hput⟩ := h.put index put hmem
    refine ⟨Nat.lt_succ_of_lt hlt, fun other hother => ?_⟩
    rcases List.mem_append.1 hother with hother | hother
    · exact hput other hother
    · cases List.mem_singleton.1 hother
      exact absurd hlt (lt_irrefl _)
  · cases hrequests _ hmem
    refine ⟨Nat.lt_succ_self _, fun other hother => ?_⟩
    rcases List.mem_append.1 hother with hother | hother
    · exact absurd hother (hnew other)
    · cases List.mem_singleton.1 hother
      rfl

/-- A listen is not asked for twice, and a connection is only opened in turn. -/
def WellTimed (connection : FPersistentConnection δ β) : Event δ β → Prop
  | .listen query => ∀ outstanding ∈ connection.listens, outstanding.query ≠ query
  | .tryScheduleReconnect => connection.connectionState = .disconnected
  | .openNetworkConnectionWithToken _ => connection.connectionState = .gettingToken
  | .onReady => connection.connectionState = .connecting
  | _ => True

instance decidableWellTimed (connection : FPersistentConnection δ β) :
    ∀ event : Event δ β, Decidable (connection.WellTimed event)
  | .listen query =>
      inferInstanceAs (Decidable (∀ outstanding ∈ connection.listens, outstanding.query ≠ query))
  | .tryScheduleReconnect => inferInstanceAs (Decidable (connection.connectionState = _))
  | .openNetworkConnectionWithToken _ =>
      inferInstanceAs (Decidable (connection.connectionState = _))
  | .onReady => inferInstanceAs (Decidable (connection.connectionState = _))
  | .putInternal _ _ _ | .unlisten _ | .purgeOutstandingWrites | .onDataMessage _ _
  | .onListenRevoked _ | .refreshAuthToken _ | .onDisconnect => isTrue trivial

/-- Out of turn an assertion fails. -/
theorem wellTimed_of_step {event : Event δ β} (hnext : self.step rank event = some next) :
    self.WellTimed event := by
  cases event with
  | listen query =>
      rw [step, FPersistentConnection.listen] at hnext
      split at hnext
      · cases hnext
      · next hnew =>
          intro outstanding hmem heq
          exact hnew (List.any_eq_true.2 ⟨outstanding, hmem, decide_eq_true heq⟩)
  | tryScheduleReconnect =>
      rw [step] at hnext
      split at hnext
      · next hstate => exact hstate
      · cases hnext
  | openNetworkConnectionWithToken hasAuthToken =>
      rw [step] at hnext
      split at hnext
      · next hstate => exact hstate
      · cases hnext
  | onReady =>
      rw [step, FPersistentConnection.onReady] at hnext
      split at hnext
      · next hstate => exact hstate
      · cases hnext
  | _ => trivial

/-- **What one event does**: no assertion fails, and it adds the blocks that it hands over.  Only the
answer to a put and the end of a connection can change their order. -/
theorem exists_step (h : self.WF) {event : Event δ β} (hevent : self.WellTimed event) :
    ∃ next, self.step rank event = some next ∧ next.WF ∧
      next.blocks.Perm (self.blocks ++ event.blocks) ∧
        (¬ self.MayReorder event → next.blocks = self.blocks ++ event.blocks) := by
  have hsame : ∀ {next event}, event.blocks = [] → SamePuts self next →
      next.WF ∧ next.blocks.Perm (self.blocks ++ event.blocks) ∧
        (¬ self.MayReorder event → next.blocks = self.blocks ++ event.blocks) := by
    intro next event hnone hnext
    rw [hnone, List.append_nil]
    exact ⟨hnext.wf h, .of_eq hnext.blocks, fun _ => hnext.blocks⟩
  cases event with
  | putInternal request hash onComplete =>
      have hblocks : self.blocks ++ [onComplete] = self.putCalls ++ self.putsToAck.map Prod.fst ++
          List.map (fun put : ℕ × FOutstandingPut δ β => put.2.onCompleteBlock)
            (self.outstandingPuts ++ [(self.putCounter, ⟨request, hash, onComplete⟩)]) := by
        rw [List.map_append, blocks, List.append_assoc]
        rfl
      refine ⟨_, putInternal_eq h request hash onComplete,
        h.putInternal request hash onComplete _ _ fun sent hmem => ?_, .of_eq hblocks.symm,
        fun _ => hblocks.symm⟩
      split at hmem
      · exact List.mem_singleton.1 hmem
      · cases hmem
  | listen query =>
      obtain ⟨next, hnext, hsent⟩ := samePuts_listen hevent
      exact ⟨next, hnext, hsame rfl hsent⟩
  | unlisten query => exact ⟨_, rfl, hsame rfl (samePuts_unlisten query)⟩
  | purgeOutstandingWrites =>
      have hblocks := (blocks_purgeOutstandingWrites h).trans (List.append_nil _).symm
      exact ⟨_, rfl, h.purgeOutstandingWrites, .of_eq hblocks, fun _ => hblocks⟩
  | tryScheduleReconnect =>
      exact ⟨_, if_pos hevent, hsame rfl ⟨rfl, rfl, rfl, rfl, rfl, fun _ _ => .inl⟩⟩
  | openNetworkConnectionWithToken hasAuthToken =>
      exact ⟨_, if_pos hevent, hsame rfl ⟨rfl, rfl, rfl, rfl, rfl, fun _ _ => .inl⟩⟩
  | onReady =>
      obtain ⟨next, hnext, hsent⟩ := samePuts_onReady h hevent
      exact ⟨next, hnext, hsame rfl hsent⟩
  | onDataMessage request status =>
      obtain ⟨next, hnext, hWF, hblocks⟩ := exists_onDataMessage h request status
      exact ⟨next, hnext, hWF, (List.append_nil self.blocks).symm ▸ hblocks⟩
  | onListenRevoked path => exact ⟨_, rfl, hsame rfl (samePuts_onListenRevoked path)⟩
  | refreshAuthToken hasAuthToken =>
      exact ⟨_, rfl, hsame rfl (samePuts_refreshAuthToken hasAuthToken)⟩
  | onDisconnect =>
      have hblocks : self.blocks ++ [] = self.blocks := List.append_nil _
      refine ⟨_, rfl, h.onDisconnect rank, hblocks.symm ▸ perm_blocks_onDisconnect, fun hnot => ?_⟩
      exact (blocks_onDisconnect (not_not.1 hnot)).trans hblocks.symm

/-- Every step keeps the invariant. -/
theorem WF.step (h : self.WF) {event : Event δ β} (hnext : self.step rank event = some next) :
    next.WF := by
  obtain ⟨_, hnext', hWF, -⟩ := exists_step h (wellTimed_of_step hnext)
  obtain rfl := Option.some.inj (hnext.symm.trans hnext')
  exact hWF

/-- From any state that keeps the invariant. -/
theorem exists_exec_perm (h : self.WF) {events : List (Event δ β)}
    (hevents : Run.Guarded (step rank) WellTimed self events) :
    ∃ last, Run.exec (step rank) self events = some last ∧ last.WF ∧
      last.blocks.Perm (self.blocks ++ events.flatMap Event.blocks) := by
  induction events generalizing self with
  | nil => exact ⟨self, rfl, h, .of_eq (List.append_nil _).symm⟩
  | cons event events ih =>
      obtain ⟨next, hnext, hWF, hblocks, -⟩ := exists_step h hevents.1
      obtain ⟨last, hlast, hlastWF, hrest⟩ := ih hWF (hevents.2 next hnext)
      refine ⟨last, Run.exec_cons_eq_some.2 ⟨next, hnext, hlast⟩, hlastWF, hrest.trans ?_⟩
      rw [List.flatMap_cons, ← List.append_assoc]
      exact hblocks.append_right _

/-- **Every put is answered at most once**: no assertion fails, and the blocks of the puts are
those that have been called, those that are held back and those of the outstanding puts. -/
theorem perm_blocks_of_exec {events : List (Event δ β)}
    (hevents : Run.Guarded (step rank) WellTimed init events) :
    ∃ last, Run.exec (step rank) init events = some last ∧
      last.blocks.Perm (events.flatMap Event.blocks) := by
  obtain ⟨last, hlast, -, hblocks⟩ := exists_exec_perm WF.init hevents
  exact ⟨last, hlast, hblocks⟩

/-- A put, two puts of transactions, an answer out of turn, and the connection is lost. -/
theorem perm_blocks_of_exec_two : ∃ last,
    Run.exec (step id) (init : FPersistentConnection Unit ℕ)
      [.tryScheduleReconnect, .openNetworkConnectionWithToken true, .onReady,
        .putInternal () none 1, .onDataMessage 0 "ok", .putInternal () (some "h") 2,
        .putInternal () (some "h") 3, .onDataMessage 1 "ok", .onDisconnect] = some last ∧
      last.blocks.Perm [1, 2, 3] :=
  perm_blocks_of_exec (by decide +kernel)

/-! ### The order of the calls -/

/-- The state is restored with nothing held back, or with a listen whose answer lets go of it. -/
def RestoresInOrder (connection : FPersistentConnection δ β) : Prop :=
  connection.putsToAck = [] ∨ connection.listens ≠ []

/-- The oldest request is answered, the state is restored in order, and no connection is lost with
the put of a transaction on its way. -/
def InOrder (connection : FPersistentConnection δ β) : Event δ β → Prop
  | .onReady => connection.hasAuthToken = false → connection.RestoresInOrder
  | .onDataMessage request status => request = 0 ∧
      (connection.requests.head? = some (.auth true) → connection.RestoresInOrder) ∧
      (connection.requests.head?.any FRequest.isAuth = true →
        status ≠ kFWPResponseForActionStatusOk → connection.sentTransactions = [])
  | .onDisconnect => connection.sentTransactions = []
  | _ => True

instance decidableRestoresInOrder (connection : FPersistentConnection δ β) :
    Decidable connection.RestoresInOrder :=
  inferInstanceAs (Decidable (connection.putsToAck = [] ∨ connection.listens ≠ []))

instance decidableInOrder [DecidableEq δ] [DecidableEq β]
    (connection : FPersistentConnection δ β) :
    ∀ event : Event δ β, Decidable (connection.InOrder event)
  | .onReady => inferInstanceAs (Decidable (connection.hasAuthToken = false → _))
  | .onDataMessage request _ => inferInstanceAs (Decidable (request = 0 ∧ (_ → _) ∧ (_ → _ → _)))
  | .onDisconnect => inferInstanceAs (Decidable (connection.sentTransactions = []))
  | .putInternal _ _ _ | .listen _ | .unlisten _ | .purgeOutstandingWrites | .tryScheduleReconnect
  | .openNetworkConnectionWithToken _ | .onListenRevoked _ | .refreshAuthToken _ => isTrue trivial

/-- What is sent is what is outstanding, but for puts that have been removed, and the state is
restored by the first answer. -/
structure Ordered (connection : FPersistentConnection δ β) : Prop where
  sent : connection.connectionState = .connected → ∃ removed,
    connection.requests.filterMap FRequest.putIndex =
      removed ++ connection.outstandingPuts.map Prod.fst ∧
        ∀ index ∈ removed, index ∉ connection.outstandingPuts.map Prod.fst
  held : connection.connectionState = .connected → connection.unackedListensCount = 0 →
    connection.putsToAck = []
  restored : connection.connectionState = .connected → .auth true ∉ connection.requests
  auth : connection.connectionState = .authenticating → ∃ requests,
    connection.requests = .auth true :: requests ∧
      requests.filterMap FRequest.putIndex = [] ∧ .auth true ∉ requests
  closed : connection.connected = false → connection.requests = []

/-- Without a connection there is nothing to be in order. -/
theorem Ordered.of_connected_eq_false (hclosed : self.connected = false)
    (hrequests : self.requests = []) : self.Ordered where
  sent hstate := by rw [connected, hstate] at hclosed; cases hclosed
  held hstate := by rw [connected, hstate] at hclosed; cases hclosed
  restored hstate := by rw [connected, hstate] at hclosed; cases hclosed
  auth hstate := by rw [connected, hstate] at hclosed; cases hclosed
  closed _ := hrequests

/-- A request that is no put and does not restore the state. -/
theorem Ordered.send (h : self.Ordered) (hnonneg : 0 ≤ self.unackedListensCount)
    (hconnected : self.connected = true)
    (request : FRequest δ β) (hput : request.putIndex = none) (hauth : request ≠ .auth true)
    {count : ℤ} (hcount : count = self.unackedListensCount + [request].countP FRequest.isListen) :
    Ordered { self with
      requests := self.requests ++ [request]
      unackedListensCount := count } where
  sent hstate := by
    obtain ⟨removed, hsent, hremoved⟩ := h.sent hstate
    refine ⟨removed, ?_, hremoved⟩
    rw [List.filterMap_append, hsent, List.filterMap_cons_none hput, List.filterMap_nil,
      List.append_nil]
  held hstate hzero := by
    refine h.held hstate ?_
    dsimp only at hzero
    omega
  restored hstate hmem := by
    rcases List.mem_append.1 hmem with hmem | hmem
    · exact h.restored hstate hmem
    · exact hauth (List.mem_singleton.1 hmem).symm
  auth hstate := by
    obtain ⟨requests, heq, hnone, hnot⟩ := h.auth hstate
    refine ⟨requests ++ [request], congrArg (· ++ [request]) heq, ?_, fun hmem => ?_⟩
    · rw [List.filterMap_append, hnone, List.filterMap_cons_none hput]
      rfl
    · rcases List.mem_append.1 hmem with hmem | hmem
      · exact hnot hmem
      · exact hauth (List.mem_singleton.1 hmem).symm
  closed hclosed := absurd (hconnected.symm.trans hclosed) Bool.noConfusion

/-- The state is restored once. -/
theorem Ordered.restore {sent : List ℕ} {requests : List (FRequest δ β)}
    (hcount : 0 ≤ self.unackedListensCount)
    (hnone : requests.filterMap FRequest.putIndex = []) (hauth : .auth true ∉ requests)
    (hheld : self.RestoresInOrder) :
    Ordered { self with
      connectionState := .connected
      sent := sent
      requests := requests ++ self.listens.map .listen ++
        self.outstandingPuts.map fun put => .put put.1 put.2
      unackedListensCount := self.unackedListensCount + self.listens.length } where
  sent _ := by
    have hlistens : (self.listens.map (.listen (β := β) (δ := δ))).filterMap FRequest.putIndex =
        [] := by
      rw [List.filterMap_map, List.filterMap_eq_nil_iff]
      exact fun _ _ => rfl
    have hputs : (self.outstandingPuts.map fun put => FRequest.put put.1 put.2).filterMap
        FRequest.putIndex = self.outstandingPuts.map Prod.fst := by
      rw [List.filterMap_map, ← List.filterMap_eq_map]
      rfl
    refine ⟨[], ?_, fun _ hmem => absurd hmem List.not_mem_nil⟩
    rw [List.filterMap_append, List.filterMap_append, hnone, hlistens, hputs]
    rfl
  held _ hzero := by
    have hlistens : self.listens = [] := by
      refine List.eq_nil_of_length_eq_zero ?_
      dsimp only at hzero
      omega
    exact hheld.resolve_right fun hne => hne hlistens
  restored _ hmem := by
    rcases List.mem_append.1 hmem with hmem | hmem
    · rcases List.mem_append.1 hmem with hmem | hmem
      · exact hauth hmem
      · obtain ⟨_, -, heq⟩ := List.mem_map.1 hmem
        cases heq
    · obtain ⟨_, -, heq⟩ := List.mem_map.1 hmem
      cases heq
  auth h := nomatch h
  closed h := nomatch h

/-- A listen is asked for. -/
theorem Ordered.listen (hself : self.WF) (h : self.Ordered) {query : FPath}
    (hlisten : self.listen query = some next) : next.Ordered := by
  rw [FPersistentConnection.listen] at hlisten
  split at hlisten
  · cases hlisten
  obtain rfl := Option.some.inj hlisten
  have hadded : Ordered { self with
      listens := self.listens ++ [⟨query, self.listenCounter⟩]
      listenCounter := self.listenCounter + 1 } :=
    ⟨h.sent, h.held, h.restored, h.auth, h.closed⟩
  split
  · next hconnected => exact hadded.send hself.nonneg hconnected (.listen _) rfl nofun rfl
  · exact hadded

/-- A listen is given up. -/
theorem Ordered.unlisten (hself : self.WF) (h : self.Ordered) (query : FPath) :
    (self.unlisten query).Ordered := by
  have hremoved : (self.removeListen query).Ordered :=
    ⟨h.sent, h.held, h.restored, h.auth, h.closed⟩
  rw [FPersistentConnection.unlisten]
  split
  · next hsends =>
      exact hremoved.send hself.nonneg (Bool.and_eq_true_iff.1 hsends).2 (.unlisten query) rfl
        nofun (Int.add_zero _).symm
  · exact hremoved

/-- There is another token, or none. -/
theorem Ordered.refreshAuthToken (hself : self.WF) (h : self.Ordered) (hasAuthToken : Bool) :
    (self.refreshAuthToken hasAuthToken).Ordered := by
  have hrefreshed : Ordered { self with hasAuthToken } :=
    ⟨h.sent, h.held, h.restored, h.auth, h.closed⟩
  rw [FPersistentConnection.refreshAuthToken]
  split
  · next hconnected =>
      split
      · exact hrefreshed.send hself.nonneg hconnected (.auth false) rfl nofun (Int.add_zero _).symm
      · exact hrefreshed.send hself.nonneg hconnected .unauth rfl nofun (Int.add_zero _).symm
  · exact hrefreshed

/-- Nothing is held back any longer. -/
theorem Ordered.ackPuts (h : self.Ordered) : self.ackPuts.Ordered :=
  ⟨h.sent, fun _ _ => rfl, h.restored, h.auth, h.closed⟩

/-- What has been sent has been removed. -/
theorem Ordered.purgeOutstandingWrites (h : self.Ordered) :
    self.purgeOutstandingWrites.Ordered where
  sent hstate := by
    obtain ⟨removed, hsent, -⟩ := h.sent hstate
    refine ⟨self.requests.filterMap FRequest.putIndex, (List.append_nil _).symm, ?_⟩
    exact fun _ _ => List.not_mem_nil
  held _ _ := rfl
  restored := h.restored
  auth := h.auth
  closed := h.closed

/-- A new put is sent last. -/
theorem Ordered.putInternal (hself : self.WF) (h : self.Ordered) {request : δ}
    {hash : Option String} {onComplete : β}
    (hput : self.putInternal request hash onComplete = some next) : next.Ordered := by
  rw [putInternal_eq hself] at hput
  obtain rfl := Option.some.inj hput
  cases hsend : self.canSendWrites with
  | true =>
      have hstate : self.connectionState = .connected := of_decide_eq_true hsend
      obtain ⟨removed, hsent, hremoved⟩ := h.sent hstate
      refine ⟨fun _ => ⟨removed, ?_, fun index hindex hmem => ?_⟩, h.held,
        fun _ hmem => ?_, fun hauth => ?_, fun hclosed => ?_⟩
      · dsimp only
        rw [if_pos rfl, List.filterMap_append, hsent, List.map_append, List.append_assoc]
        rfl
      · rw [List.map_append] at hmem
        rcases List.mem_append.1 hmem with hmem | hmem
        · exact hremoved index hindex hmem
        · -- A put that has been removed has a smaller number than the new one.
          have hfilter : index ∈ self.requests.filterMap FRequest.putIndex := by
            rw [hsent]
            exact List.mem_append_left _ hindex
          obtain ⟨sent, hsentMem, hputIndex⟩ := List.mem_filterMap.1 hfilter
          cases sent with
          | put index' put =>
              cases hputIndex
              have hlt := (hself.put index put hsentMem).1
              rw [List.mem_singleton.1 hmem] at hlt
              exact lt_irrefl _ hlt
          | _ => cases hputIndex
      · rw [if_pos rfl] at hmem
        rcases List.mem_append.1 hmem with hmem | hmem
        · exact h.restored hstate hmem
        · cases List.mem_singleton.1 hmem
      · cases hstate.symm.trans hauth
      · have hconnected : self.connected = true := by rw [connected, hstate]; rfl
        exact absurd (hconnected.symm.trans hclosed) Bool.noConfusion
  | false =>
      have hstate : self.connectionState ≠ .connected := of_decide_eq_false hsend
      simp only [Bool.false_eq_true, if_false, List.append_nil]
      exact ⟨fun h => absurd h hstate, h.held, h.restored, h.auth, h.closed⟩

/-- The connection is there, and the state is restored or a token sent. -/
theorem Ordered.onReady (hself : self.WF) (h : self.Ordered)
    (horder : self.hasAuthToken = false → self.RestoresInOrder)
    (hready : self.onReady = some next) : next.Ordered := by
  rw [FPersistentConnection.onReady] at hready
  split at hready
  · next hstate =>
      have hclosed : self.requests = [] := h.closed (by rw [connected, hstate]; rfl)
      split at hready
      · obtain rfl := Option.some.inj hready
        have hrequests : self.requests ++ [FRequest.auth true] = [.auth true] := by
          rw [hclosed, List.nil_append]
        exact ⟨nofun, nofun, nofun, fun _ => ⟨[], hrequests, rfl, List.not_mem_nil⟩, nofun⟩
      · next htoken =>
          have hconnected : WF { self with connectionState := .connected } :=
            ⟨hself.count, hself.sorted, hself.lt, hself.put⟩
          rw [restoreState_eq hconnected rfl] at hready
          obtain rfl := Option.some.inj hready
          exact Ordered.restore hself.nonneg (by rw [hclosed]; rfl) (by rw [hclosed]; exact
            List.not_mem_nil) (horder (Bool.eq_false_iff.2 htoken))
  · cases hready

/-- The oldest request has been answered, and the answer does nothing else. -/
theorem Ordered.tail (h : self.Ordered) {request : FRequest δ β} {requests : List (FRequest δ β)}
    (hrequests : self.requests = request :: requests) (hput : request.putIndex = none)
    (hauth : request ≠ .auth true) {count : ℤ}
    (hheld : self.connectionState = .connected → count = 0 → self.putsToAck = []) :
    Ordered { self with requests, unackedListensCount := count } where
  sent hstate := by
    obtain ⟨removed, hsent, hremoved⟩ := h.sent hstate
    rw [hrequests, List.filterMap_cons_none hput] at hsent
    exact ⟨removed, hsent, hremoved⟩
  held := hheld
  restored hstate hmem := h.restored hstate (hrequests ▸ List.mem_cons_of_mem _ hmem)
  auth hstate := by
    obtain ⟨_, heq, -⟩ := h.auth hstate
    exact absurd (List.cons.inj (hrequests.symm.trans heq)).1 hauth
  closed hclosed := by
    cases hrequests.symm.trans (h.closed hclosed)

/-- Any other answer comes after the state has been restored. -/
theorem Ordered.connectionState_eq (h : self.Ordered) {request : FRequest δ β}
    {requests : List (FRequest δ β)} (hrequests : self.requests = request :: requests)
    (hauth : request ≠ .auth true) : self.connectionState = .connected := by
  cases hstate : self.connectionState with
  | connected => rfl
  | authenticating =>
      obtain ⟨_, heq, -⟩ := h.auth hstate
      exact absurd (List.cons.inj (hrequests.symm.trans heq)).1 hauth
  | _ => cases hrequests.symm.trans (h.closed (by rw [connected, hstate]; rfl))

/-- **The answer to the oldest put** keeps the order of the blocks. -/
theorem Ordered.onPutResponse (hself : self.WF) (h : self.Ordered) {index : ℕ}
    {put : FOutstandingPut δ β} {requests : List (FRequest δ β)} (status : String)
    (hrequests : self.requests = .put index put :: requests) :
    (onPutResponse { self with requests } index put status).Ordered ∧
      (onPutResponse { self with requests } index put status).blocks = self.blocks := by
  have hstate : self.connectionState = .connected := h.connectionState_eq hrequests nofun
  have hrestored : .auth true ∉ requests := fun hmem =>
    h.restored hstate (hrequests ▸ List.mem_cons_of_mem _ hmem)
  have hauth : self.connectionState ≠ .authenticating := fun hauth =>
    nomatch hstate.symm.trans hauth
  have hconnected : self.connected ≠ false := by
    rw [connected, hstate]
    exact nofun
  obtain ⟨removed, hsent, hremoved⟩ := h.sent hstate
  have hcons : self.requests.filterMap FRequest.putIndex =
      index :: requests.filterMap FRequest.putIndex := by
    rw [hrequests]
    rfl
  rw [hcons] at hsent
  rw [FPersistentConnection.onPutResponse]
  cases removed with
  | cons first removed =>
      -- The put has been removed.
      obtain ⟨rfl, hrest⟩ := List.cons.inj hsent
      have hnone : self.outstandingPuts.lookup index = none :=
        Assoc.lookup_eq_none_iff.2 fun put hmem =>
          hremoved index List.mem_cons_self (List.mem_map_of_mem hmem)
      rw [hnone, Option.isSome_none, if_neg Bool.false_ne_true]
      refine ⟨⟨fun _ => ⟨removed, hrest, fun index' hmem => hremoved index'
        (List.mem_cons_of_mem _ hmem)⟩, h.held, fun _ => hrestored, fun h => absurd h hauth,
        fun h => absurd h hconnected⟩, rfl⟩
  | nil =>
      -- It is the oldest of the outstanding puts.
      cases hputs : self.outstandingPuts with
      | nil =>
          rw [hputs] at hsent
          cases hsent
      | cons first puts =>
          obtain ⟨index', other⟩ := first
          rw [hputs] at hsent
          obtain ⟨rfl, hrest⟩ := List.cons.inj hsent
          obtain rfl : other = put := (hself.put index put (by
            rw [hrequests]; exact List.mem_cons_self)).2 other (by
              rw [hputs]; exact List.mem_cons_self)
          have hnodup := hself.nodup
          rw [hputs] at hnodup
          have hlookup : ((index, other) :: puts).lookup index = some other :=
            Assoc.lookup_eq_some_of_mem hnodup List.mem_cons_self
          rw [hlookup, Option.isSome_some, if_pos rfl, filter_cons_eq hnodup]
          dsimp only
          split
          · next hzero =>
              have hheld := h.held hstate hzero
              refine ⟨⟨fun _ => ⟨[], hrest, fun _ hmem => absurd hmem List.not_mem_nil⟩,
                h.held, fun _ => hrestored, fun h => absurd h hauth,
                fun h => absurd h hconnected⟩, ?_⟩
              rw [blocks, blocks, putCalls, putCalls, hputs]
              dsimp only
              rw [hheld, List.filterMap_append, List.map_cons]
              simp [FBlockCall.putBlock]
          · next hne =>
              refine ⟨⟨fun _ => ⟨[], hrest, fun _ hmem => absurd hmem List.not_mem_nil⟩,
                fun _ hzero => absurd hzero hne, fun _ => hrestored, fun h => absurd h hauth,
                fun h => absurd h hconnected⟩, ?_⟩
              rw [blocks, blocks, putCalls, putCalls, hputs]
              dsimp only
              rw [List.map_append, List.map_cons]
              simp

/-- A listen is answered. -/
theorem Ordered.onListenStatus (h : self.Ordered) (listenSpec : FOutstandingQuery)
    (status : String) : (self.onListenStatus listenSpec status).Ordered ∧
      (self.onListenStatus listenSpec status).requests = self.requests := by
  rw [FPersistentConnection.onListenStatus]
  split
  · dsimp only
    split
    · exact ⟨⟨h.sent, h.held, h.restored, h.auth, h.closed⟩, rfl⟩
    · exact ⟨⟨h.sent, h.held, h.restored, h.auth, h.closed⟩, rfl⟩
  · exact ⟨h, rfl⟩

/-- When the last listen has been answered nothing is held back any longer. -/
theorem Ordered.onListenResponse (h : self.Ordered) {listenSpec : FOutstandingQuery}
    {requests : List (FRequest δ β)} (status : String)
    (hrequests : self.requests = .listen listenSpec :: requests)
    (hnext : onListenResponse { self with requests } listenSpec status = some next) :
    next.Ordered := by
  obtain ⟨hlistened, heq⟩ := h.onListenStatus listenSpec status
  rw [FPersistentConnection.onListenResponse, onListenStatus_requests] at hnext
  split at hnext
  swap
  · cases hnext
  obtain rfl := Option.some.inj hnext
  split
  · exact hlistened.ackPuts.tail (heq.trans hrequests) rfl nofun fun _ _ => rfl
  · next hne =>
      exact hlistened.tail (heq.trans hrequests) rfl nofun fun _ hzero =>
        absurd hzero hne

/-- The state is restored by the first answer, and the connection is given up if the token is
refused. -/
theorem Ordered.onAuthResponse (hself : self.WF) (h : self.Ordered) {restore : Bool}
    {requests : List (FRequest δ β)} {status : String}
    (hrequests : self.requests = .auth restore :: requests)
    (horder : restore = true → self.RestoresInOrder)
    (hnext : onAuthResponse rank { self with requests } restore status = some next) :
    next.Ordered := by
  rw [FPersistentConnection.onAuthResponse] at hnext
  split at hnext
  · cases restore with
    | true =>
        have hcount : self.unackedListensCount = requests.countP FRequest.isListen := by
          rw [hself.count, hrequests]
          rfl
        have hWF : WF { self with requests, connectionState := .connected } :=
          ⟨hcount, hself.sorted, hself.lt, fun index put hmem =>
            hself.put index put (hrequests ▸ List.mem_cons_of_mem _ hmem)⟩
        have hstate : self.connectionState = .authenticating := by
          cases hstate : self.connectionState with
          | authenticating => rfl
          | connected =>
              exact absurd (hrequests ▸ List.mem_cons_self) (h.restored hstate)
          | _ => cases hrequests.symm.trans (h.closed (by rw [connected, hstate]; rfl))
        obtain ⟨rest, heq, hnone, hauth⟩ := h.auth hstate
        obtain rfl : requests = rest := (List.cons.inj (hrequests.symm.trans heq)).2
        rw [if_pos rfl, restoreState_eq hWF rfl] at hnext
        obtain rfl := Option.some.inj hnext
        exact Ordered.restore hself.nonneg hnone hauth (horder rfl)
    | false =>
        have hstate : self.connectionState = .connected :=
          h.connectionState_eq hrequests (by simp)
        rw [if_neg Bool.false_ne_true] at hnext
        obtain rfl := Option.some.inj hnext
        rw [← hstate]
        exact h.tail hrequests rfl (by simp) h.held
  · obtain rfl := Option.some.inj hnext
    exact .of_connected_eq_false rfl rfl

/-- **The oldest answer** keeps the order. -/
theorem Ordered.onDataMessage (hself : self.WF) (h : self.Ordered) {status : String}
    (horder : self.requests.head? = some (.auth true) → self.RestoresInOrder)
    (hlost : self.requests.head?.any FRequest.isAuth = true →
      status ≠ kFWPResponseForActionStatusOk → self.sentTransactions = [])
    (hnext : self.onDataMessage rank 0 status = some next) :
    next.Ordered ∧ next.blocks = self.blocks := by
  have hexists : ∃ next, self.onDataMessage rank 0 status = some next ∧ _ :=
    exists_onDataMessage hself 0 status
  obtain ⟨_, hnext', -, -, hblocks⟩ := hexists
  obtain rfl := Option.some.inj (hnext.symm.trans hnext')
  cases hrequests : self.requests with
  | nil =>
      rw [FPersistentConnection.onDataMessage, hrequests] at hnext
      obtain rfl := Option.some.inj hnext
      exact ⟨h, rfl⟩
  | cons answered requests =>
      have hanswer : onResponse rank { self with requests } status answered = some next := by
        rw [FPersistentConnection.onDataMessage, hrequests] at hnext
        exact hnext
      have hother : answered.putIndex = none → next.blocks = self.blocks := by
        rintro hput
        refine hblocks ?_
        rintro ⟨other, hget, hother⟩
        rw [hrequests] at hget hlost
        obtain rfl : answered = other := Option.some.inj hget
        rcases hother with hother | ⟨hauth, hstatus, hsent⟩
        · exact hother hput
        · exact hsent (hlost hauth hstatus)
      cases answered with
      | put index put =>
          obtain rfl := Option.some.inj hanswer
          exact Ordered.onPutResponse hself h status hrequests
      | listen listenSpec =>
          exact ⟨h.onListenResponse status hrequests hanswer, hother rfl⟩
      | unlisten query =>
          refine ⟨?_, hother rfl⟩
          obtain rfl := Option.some.inj hanswer
          exact h.tail hrequests rfl nofun h.held
      | auth restore =>
          refine ⟨h.onAuthResponse hself hrequests (fun heq => horder ?_) hanswer, hother rfl⟩
          rw [hrequests, heq]
          rfl
      | unauth =>
          refine ⟨?_, hother rfl⟩
          obtain rfl := Option.some.inj hanswer
          exact h.tail hrequests rfl nofun h.held

/-- **What one event does in order**: the blocks that it hands over come after all others. -/
theorem Ordered.step (hself : self.WF) (h : self.Ordered) {event : Event δ β}
    (horder : self.InOrder event) (hnext : self.step rank event = some next) :
    next.Ordered ∧ next.blocks = self.blocks ++ event.blocks := by
  have hevent := wellTimed_of_step hnext
  obtain ⟨_, hnext', -, -, hblocks⟩ := exists_step hself hevent
  obtain rfl := Option.some.inj (hnext.symm.trans hnext')
  cases event with
  | onDataMessage request status =>
      obtain ⟨rfl, hauth, hlost⟩ := horder
      obtain ⟨hordered, hkept⟩ := Ordered.onDataMessage hself h hauth hlost hnext
      exact ⟨hordered, hkept.trans (List.append_nil _).symm⟩
  | putInternal request hash onComplete =>
      exact ⟨h.putInternal hself hnext, hblocks not_false⟩
  | listen query => exact ⟨h.listen hself hnext, hblocks not_false⟩
  | unlisten query =>
      refine ⟨?_, hblocks not_false⟩
      obtain rfl := Option.some.inj hnext
      exact h.unlisten hself query
  | purgeOutstandingWrites =>
      refine ⟨?_, hblocks not_false⟩
      obtain rfl := Option.some.inj hnext
      exact h.purgeOutstandingWrites
  | tryScheduleReconnect =>
      refine ⟨?_, hblocks not_false⟩
      have hclosed : self.connected = false := by rw [connected, hevent]; rfl
      obtain rfl := Option.some.inj ((if_pos hevent).symm.trans hnext)
      exact .of_connected_eq_false rfl (h.closed hclosed)
  | openNetworkConnectionWithToken hasAuthToken =>
      refine ⟨?_, hblocks not_false⟩
      have hclosed : self.connected = false := by rw [connected, hevent]; rfl
      obtain rfl := Option.some.inj ((if_pos hevent).symm.trans hnext)
      exact .of_connected_eq_false rfl (h.closed hclosed)
  | onReady => exact ⟨h.onReady hself horder hnext, hblocks not_false⟩
  | onListenRevoked path =>
      refine ⟨?_, hblocks not_false⟩
      obtain rfl := Option.some.inj hnext
      exact ⟨h.sent, h.held, h.restored, h.auth, h.closed⟩
  | refreshAuthToken hasAuthToken =>
      refine ⟨?_, hblocks not_false⟩
      obtain rfl := Option.some.inj hnext
      exact h.refreshAuthToken hself hasAuthToken
  | onDisconnect =>
      refine ⟨?_, hblocks (not_not.2 horder)⟩
      obtain rfl := Option.some.inj hnext
      exact .of_connected_eq_false rfl rfl

/-- The event asks for a listen, or takes back the puts. -/
def Event.letsGo : Event δ β → Bool
  | .listen _ => true
  | .purgeOutstandingWrites => true
  | _ => false

/-- Nothing is listened to, and no listen has to be answered. -/
structure Unlistened (connection : FPersistentConnection δ β) : Prop where
  listens : connection.listens = []
  requests : ∀ request ∈ connection.requests, request.isListen = false

/-- A request other than a listen is sent. -/
theorem Unlistened.sendAction (h : self.Unlistened) {request : FRequest δ β}
    (hlisten : request.isListen = false) : (self.sendAction request).Unlistened := by
  refine ⟨h.listens, fun other hmem => ?_⟩
  rcases List.mem_append.1 hmem with hmem | hmem
  · exact h.requests other hmem
  · rw [List.mem_singleton.1 hmem]
    exact hlisten

/-- Without listens only puts are sent when the state is restored. -/
theorem Unlistened.restoreState (hself : self.WF) (h : self.Unlistened)
    (hconnected : self.connectionState = .connected) (hnext : self.restoreState = some next) :
    next.Unlistened ∧ next.putsToAck = self.putsToAck := by
  rw [restoreState_eq hself hconnected, h.listens, List.map_nil, List.append_nil] at hnext
  obtain rfl := Option.some.inj hnext
  refine ⟨⟨rfl, fun request hmem => ?_⟩, rfl⟩
  rcases List.mem_append.1 hmem with hmem | hmem
  · exact h.requests request hmem
  · obtain ⟨_, -, rfl⟩ := List.mem_map.1 hmem
    rfl

/-- No listen is counted. -/
theorem Unlistened.unackedListensCount (hself : self.WF) (h : self.Unlistened) :
    self.unackedListensCount = 0 := by
  have hnone : self.requests.countP FRequest.isListen = 0 :=
    List.countP_eq_zero.2 fun request hmem =>
      Bool.eq_false_iff.1 (h.requests request hmem)
  rw [hself.count, hnone, Nat.cast_zero]

/-- No request is left to be answered. -/
theorem Unlistened.onDisconnect (h : self.listens = []) (rank : ℕ → ℕ) :
    (self.onDisconnect rank).Unlistened :=
  ⟨h, fun _ hmem => absurd hmem List.not_mem_nil⟩

/-- **An answer to an outstanding put is handed on at once**, past those that are held back. -/
theorem Unlistened.onPutResponse (hself : self.WF) (h : self.Unlistened) {index : ℕ}
    (hput : (self.outstandingPuts.lookup index).isSome) (put : FOutstandingPut δ β)
    (status : String) :
    (self.onPutResponse index put status).calls =
        self.calls ++ [.put put.onCompleteBlock status] ∧
      (self.onPutResponse index put status).putsToAck = self.putsToAck := by
  rw [FPersistentConnection.onPutResponse, if_pos hput]
  dsimp only
  rw [if_pos (h.unackedListensCount hself)]
  exact ⟨rfl, rfl⟩

/-- No answer is held back, and none of those held back is handed on. -/
theorem Unlistened.onResponse (hself : self.WF) (h : self.Unlistened)
    {answered : FRequest δ β} (hlisten : answered.isListen = false) {status : String}
    (hnext : self.onResponse rank status answered = some next) :
    next.Unlistened ∧ next.putsToAck = self.putsToAck := by
  cases answered with
  | put index put =>
      obtain rfl := Option.some.inj hnext
      rw [FPersistentConnection.onPutResponse]
      split
      · dsimp only
        rw [if_pos (h.unackedListensCount hself)]
        exact ⟨⟨h.listens, h.requests⟩, rfl⟩
      · exact ⟨h, rfl⟩
  | listen listenSpec => cases hlisten
  | unlisten query =>
      obtain rfl := Option.some.inj hnext
      exact ⟨h, rfl⟩
  | auth restore =>
      rw [FPersistentConnection.onResponse, FPersistentConnection.onAuthResponse] at hnext
      have hconnected : WF { self with connectionState := .connected } :=
        ⟨hself.count, hself.sorted, hself.lt, hself.put⟩
      have hunlistened : Unlistened { self with connectionState := .connected } :=
        ⟨h.listens, h.requests⟩
      split at hnext
      · split at hnext
        · have hrestored := hunlistened.restoreState hconnected rfl hnext
          exact hrestored
        · obtain rfl := Option.some.inj hnext
          exact ⟨hunlistened, rfl⟩
      · obtain rfl := Option.some.inj hnext
        exact ⟨⟨h.listens, fun _ hmem => absurd hmem List.not_mem_nil⟩, rfl⟩
  | unauth =>
      obtain rfl := Option.some.inj hnext
      exact ⟨h, rfl⟩

/-- **What an event does** while nothing is listened to: what is held back stays held back. -/
theorem Unlistened.step (hself : self.WF) (h : self.Unlistened) {event : Event δ β}
    (hevent : event.letsGo = false) (hnext : self.step rank event = some next) :
    next.Unlistened ∧ next.putsToAck = self.putsToAck := by
  cases event with
  | putInternal request hash onComplete =>
      rw [FPersistentConnection.step, putInternal_eq hself] at hnext
      obtain rfl := Option.some.inj hnext
      refine ⟨⟨h.listens, fun other hmem => ?_⟩, rfl⟩
      rcases List.mem_append.1 hmem with hmem | hmem
      · exact h.requests other hmem
      · split at hmem
        · rw [List.mem_singleton.1 hmem]
          rfl
        · cases hmem
  | listen query => cases hevent
  | purgeOutstandingWrites => cases hevent
  | unlisten query =>
      obtain rfl := Option.some.inj hnext
      rw [FPersistentConnection.unlisten, h.listens, List.any_nil, Bool.false_and,
        if_neg Bool.false_ne_true, FPersistentConnection.removeListen, h.listens]
      exact ⟨⟨rfl, h.requests⟩, rfl⟩
  | tryScheduleReconnect =>
      rw [FPersistentConnection.step] at hnext
      split at hnext
      · obtain rfl := Option.some.inj hnext
        exact ⟨⟨h.listens, h.requests⟩, rfl⟩
      · cases hnext
  | openNetworkConnectionWithToken hasAuthToken =>
      rw [FPersistentConnection.step] at hnext
      split at hnext
      · obtain rfl := Option.some.inj hnext
        exact ⟨⟨h.listens, h.requests⟩, rfl⟩
      · cases hnext
  | onReady =>
      rw [FPersistentConnection.step, FPersistentConnection.onReady] at hnext
      have hstarted : ∀ state, Unlistened { self with connectionState := state } :=
        fun _ => ⟨h.listens, h.requests⟩
      split at hnext
      · split at hnext
        · obtain rfl := Option.some.inj hnext
          exact ⟨(hstarted .authenticating).sendAction rfl, rfl⟩
        · have hconnected : WF { self with connectionState := .connected } :=
            ⟨hself.count, hself.sorted, hself.lt, hself.put⟩
          have hrestored := (hstarted .connected).restoreState hconnected rfl hnext
          exact hrestored
      · cases hnext
  | onDataMessage request status =>
      rw [FPersistentConnection.step, FPersistentConnection.onDataMessage] at hnext
      split at hnext
      · next answered hanswered =>
          have hlisten := h.requests answered (List.mem_of_getElem? hanswered)
          have hWF := (samePuts_eraseIdx hanswered hlisten).wf hself
          have hremoved : Unlistened { self with requests := self.requests.eraseIdx request } :=
            ⟨h.listens, fun other hmem => h.requests other (List.mem_of_mem_eraseIdx hmem)⟩
          have hresponse := hremoved.onResponse hWF hlisten hnext
          exact hresponse
      · obtain rfl := Option.some.inj hnext
        exact ⟨h, rfl⟩
  | onListenRevoked path =>
      obtain rfl := Option.some.inj hnext
      refine ⟨⟨?_, h.requests⟩, rfl⟩
      rw [FPersistentConnection.onListenRevoked, FPersistentConnection.removeListen]
      dsimp only
      rw [h.listens, List.filter_nil]
  | refreshAuthToken hasAuthToken =>
      obtain rfl := Option.some.inj hnext
      have hrefreshed : Unlistened { self with hasAuthToken } := ⟨h.listens, h.requests⟩
      rw [FPersistentConnection.refreshAuthToken]
      split
      · split
        · exact ⟨hrefreshed.sendAction rfl, rfl⟩
        · exact ⟨hrefreshed.sendAction rfl, rfl⟩
      · exact ⟨hrefreshed, rfl⟩
  | onDisconnect =>
      obtain rfl := Option.some.inj hnext
      exact ⟨.onDisconnect h.listens rank, rfl⟩

/-- From a connection on which nothing is listened to. -/
theorem Unlistened.exec (hself : self.WF) (h : self.Unlistened) {events : List (Event δ β)}
    (hevents : ∀ event ∈ events, event.letsGo = false)
    (hlast : Run.exec (FPersistentConnection.step rank) self events = some last) :
    last.WF ∧ last.Unlistened ∧ last.putsToAck = self.putsToAck := by
  refine Run.exec_invariant (I := fun connection => connection.WF ∧ connection.Unlistened ∧
    connection.putsToAck = self.putsToAck) ?_ ⟨hself, h, rfl⟩ (Run.guarded_of_forall_mem hevents)
      hlast
  rintro connection event next ⟨hconnection, hunlistened, hheld⟩ hevent hnext
  obtain ⟨hnextUnlistened, hkept⟩ := hunlistened.step hconnection hevent hnext
  exact ⟨hconnection.step hnext, hnextUnlistened, hkept.trans hheld⟩

/-- **Answers that are never handed on**: if the connection is lost while answers are held back and
nothing is listened to, then until something is listened to or the puts are taken back these answers
stay held back, and whenever an outstanding put is answered its block is called at once. -/
theorem putsToAck_of_exec {before after : List (Event δ β)} {lost last : FPersistentConnection δ β}
    (hlost : Run.exec (step rank) init before = some lost) (hlistens : lost.listens = [])
    (hafter : ∀ event ∈ after, event.letsGo = false)
    (hlast : Run.exec (step rank) (lost.onDisconnect rank) after = some last) :
    last.putsToAck = lost.putsToAck ∧
      ∀ request index put status, last.requests[request]? = some (.put index put) →
        (last.outstandingPuts.lookup index).isSome →
          ∃ next, last.onDataMessage rank request status = some next ∧
            next.calls = last.calls ++ [.put put.onCompleteBlock status] ∧
              next.putsToAck = lost.putsToAck := by
  have hWF : lost.WF :=
    Run.exec_invariant' (fun _ _ _ hself hnext => hself.step hnext) WF.init hlost
  obtain ⟨hlastWF, hunlistened, hheld⟩ :=
    (Unlistened.onDisconnect hlistens rank).exec (hWF.onDisconnect rank) hafter hlast
  refine ⟨hheld, fun request index put status hanswered hput => ?_⟩
  have hremovedWF := (samePuts_eraseIdx hanswered rfl).wf hlastWF
  have hremoved : Unlistened { last with requests := last.requests.eraseIdx request } :=
    ⟨hunlistened.listens, fun other hmem =>
      hunlistened.requests other (List.mem_of_mem_eraseIdx hmem)⟩
  obtain ⟨hcalls, hkept⟩ := hremoved.onPutResponse hremovedWF hput put status
  refine ⟨_, ?_, hcalls, hkept.trans hheld⟩
  rw [FPersistentConnection.onDataMessage, hanswered]
  rfl

/-- The connection is lost with the answer to the first put held back, and the answer to the second
is handed on. -/
theorem putsToAck_of_exec_one : ∃ lost last next,
    Run.exec (step id) (init : FPersistentConnection Unit ℕ)
      [.tryScheduleReconnect, .openNetworkConnectionWithToken false, .onReady,
        .putInternal () none 1, .listen ["events"], .onDataMessage 0 "ok",
        .unlisten ["events"]] = some lost ∧
      Run.exec (step id) (lost.onDisconnect id)
        [.tryScheduleReconnect, .openNetworkConnectionWithToken false, .onReady,
          .putInternal () none 2] = some last ∧
      last.onDataMessage id 0 "ok" = some next ∧
      last.putCalls = [] ∧ next.putCalls = [2] ∧ next.putsToAck = [(1, "ok")] := by
  have hrun : ((Run.exec (step id) (init : FPersistentConnection Unit ℕ)
      [.tryScheduleReconnect, .openNetworkConnectionWithToken false, .onReady,
        .putInternal () none 1, .listen ["events"], .onDataMessage 0 "ok",
        .unlisten ["events"]]).bind fun lost =>
      (Run.exec (step id) (lost.onDisconnect id)
        [.tryScheduleReconnect, .openNetworkConnectionWithToken false, .onReady,
          .putInternal () none 2]).map fun last =>
        (lost.listens, lost.putsToAck, last.putCalls,
          decide (last.requests[0]? = some (.put 1 ⟨(), none, 2⟩)),
          (last.outstandingPuts.lookup 1).isSome)) =
        some ([], [(1, "ok")], [], true, true) := by
    decide +kernel
  obtain ⟨lost, hlost, hrest⟩ := Option.bind_eq_some_iff.1 hrun
  obtain ⟨last, hlast, heq⟩ := Option.map_eq_some_iff.1 hrest
  simp only [Prod.mk.injEq] at heq
  obtain ⟨hlistens, hheld, hcalls, hanswered, hput⟩ := heq
  obtain ⟨next, hnext, hcalled, hkept⟩ :=
    (putsToAck_of_exec hlost hlistens (by decide) hlast).2 0 1 ⟨(), none, 2⟩ "ok"
      (of_decide_eq_true hanswered) hput
  refine ⟨lost, last, next, hlost, hlast, hnext, hcalls, ?_, hkept.trans hheld⟩
  rw [putCalls, hcalled, List.filterMap_append]
  rw [putCalls] at hcalls
  rw [hcalls]
  rfl

-- Once something is listened to, the answer to the first put comes after that to the second.
example :
    (Run.exec (step id) (init : FPersistentConnection Unit ℕ)
      [.tryScheduleReconnect, .openNetworkConnectionWithToken false, .onReady,
        .putInternal () none 1, .listen ["events"], .onDataMessage 0 "ok", .unlisten ["events"],
        .onDisconnect,
        .tryScheduleReconnect, .openNetworkConnectionWithToken false, .onReady,
        .putInternal () none 2, .onDataMessage 0 "ok",
        .listen ["events"], .onDataMessage 0 "ok"]).map putCalls = some [2, 1] := by
  decide +kernel

end FPersistentConnection
end Teamstuff
