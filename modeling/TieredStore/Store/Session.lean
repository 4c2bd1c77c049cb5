import TieredStore.Store.Fetch

/-!
# Sessions

A session is a store together with what is left of it while it is closed, so that
a store can be closed and opened again over the same ledgers and the same tier.
-/

namespace TieredStore

/-- A store that is open, or what is there while it is not. -/
inductive Session (τ : Type)
  | closed (host : Host τ)
  | opened (store : Store τ)

namespace Session

variable {τ : Type}

def store? : Session τ → Option (Store τ)
  | closed _ => none
  | opened store => some store

def host : Session τ → Host τ
  | closed host => host
  | opened store => store.close

def ledgers : Session τ → Ledgers
  | closed host => host.ledgers
  | opened store => store.log.medium

def setLedgers (session : Session τ) (ledgers : Ledgers) : Session τ :=
  match session with
  | closed host => closed { host with ledgers }
  | opened store => opened { store with log := { store.log with medium := ledgers } }

def tier : Session τ → τ
  | closed host => host.tier
  | opened store => store.container.tier

def setTier (session : Session τ) (tier : τ) : Session τ :=
  match session with
  | closed host => closed { host with tier }
  | opened store => opened { store with container := { store.container with tier } }

def close (session : Session τ) : Session τ := closed session.host

variable [Tier τ]

def reopen (session : Session τ) (config : Config) : Except Error RecoveryStats × Session τ :=
  match Store.load config session.host with
  | .ok store => (.ok store.recovery, opened store)
  | .error (e, host) => (.error e, closed host)

def settle : Session τ → Session τ
  | closed host => closed host.settle
  | opened store => opened store.settle

def advance (session : Session τ) (milliseconds : Nat) : Session τ :=
  match session with
  | closed host => closed (host.advance milliseconds)
  | opened store => opened (store.advance milliseconds)

end Session
end TieredStore
