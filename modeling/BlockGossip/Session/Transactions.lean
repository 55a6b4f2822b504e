import BlockGossip.Session.Basic

/-!
# Transactions of a session

Clients create transactions and offer them to all their peers. An offered
transaction is executed and answered, or passed on to every peer but the one
that offered it, by the role of the node that takes it.
-/

namespace BlockGossip.Session

def onNextTransaction (s : Session) : Outcome Session :=
  if !s.setup.role.originates then (s, [])
  else
    let (created, pool) := s.pool.create s.now
    let s := { s with
      pool
      counted := { s.counted with nodeGeneratedTransaction := pool.generated } }
    let (s, offers) :=
      s.sendAll .requestTrans s.setup.peers (Envelope.requestTrans [created])
        (s.charge .requestTrans 1 0)
    let (s, timer) := s.armTimer .nextTransaction s.pool.config.creatingInterval
    (s, offers ++ timer)

/-- What came of offered transactions: those executed and those to pass on. -/
structure Admission where
  pool : Pool
  replies : List Transaction
  forwards : List Transaction

def Admission.offer (now : Time) (a : Admission) (t : Transaction) : Admission :=
  match a.pool.request t now with
  | (.executed executed, pool) => { a with pool, replies := a.replies ++ [executed] }
  | (.forward fresh, pool) => { a with pool, forwards := a.forwards ++ [fresh] }
  | (.alreadyHeld, pool) => { a with pool }
  | (.ignored, pool) => { a with pool }

/-- Offered transactions: answers go back, the others are passed on. -/
def onRequestTrans (s : Session) (sender : NodeId) (e : Envelope) : Outcome Session :=
  if !s.setup.role.acceptsRequests then (s, [])
  else
    let s := s.countReceived .requestTrans (s.charge .requestTrans e.transactions.length 0)
    let taken := e.transactions.foldl (Admission.offer s.now) ⟨s.pool, [], []⟩
    let s := { s with pool := taken.pool }
    let (s, answers) :=
      if taken.replies.isEmpty then (s, [])
      else
        s.sendAll .replyTrans [sender] (Envelope.replyTrans taken.replies)
          (s.charge .replyTrans taken.replies.length 0)
    let (s, passed) :=
      if taken.forwards.isEmpty then (s, [])
      else
        s.sendAll .requestTrans (s.setup.peers.filter (· != sender))
          (Envelope.requestTrans taken.forwards)
          (s.charge .requestTrans taken.forwards.length 0)
    (s, answers ++ passed)

def onReplyTrans (s : Session) (e : Envelope) : Session :=
  let s := s.countReceived .replyTrans (s.charge .replyTrans e.transactions.length 0)
  { s with pool := e.transactions.foldl (fun pool t => (pool.reply t).2) s.pool }

end BlockGossip.Session
