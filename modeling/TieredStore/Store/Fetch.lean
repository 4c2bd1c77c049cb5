import TieredStore.Store.Basic

/-!
# Reads of the tier

A read of the tier is started at one time and carried out at another.  It is
carried out even if nobody wants its outcome any more, and it then still fills
the cache.  Reads that a closed store has started change nothing that can be
seen but the tier.
-/

namespace TieredStore

/-- Carries out reads whose outcomes nobody wants. -/
def runOrphans {τ : Type} [Tier τ] (tier : τ) (orphans : List FetchRequest) : τ :=
  orphans.foldl (fun tier request =>
    match (Container.readSource request).run tier with
    | .ok _ tier => tier
    | .error _ tier => tier) tier

def Host.settle {τ : Type} [Tier τ] (host : Host τ) : Host τ :=
  { host with tier := runOrphans host.tier host.orphans, orphans := [] }

def Host.advance {τ : Type} [Tier τ] (host : Host τ) (milliseconds : Nat) : Host τ :=
  { host.settle with now := host.now + milliseconds }

def Fetches.expects (fetches : Fetches) (ticket : Nat) : Bool :=
  fetches.queue.any (·.1 == ticket)

namespace Store

variable {τ : Type}

def startFetch (request : FetchRequest) (store : Store τ) : Nat × Store τ :=
  let ticket := store.fetches.nextTicket
  (ticket,
    { store with
      fetches :=
        { store.fetches with
          queue := store.fetches.queue ++ [(ticket, request)]
          nextTicket := ticket + 1 } })

def takeOutcome (ticket : Nat) (store : Store τ) : Option (Except Error Bytes) × Store τ :=
  let arrived := store.fetches.arrived
  (arrived.get? ticket,
    { store with fetches := { store.fetches with arrived := arrived.erase ticket } })

variable [Tier τ]

def runFetch (store : Store τ) (fetch : Nat × FetchRequest) : Store τ :=
  let (outcome, container) : Except Error Bytes × Container τ :=
    match (Container.fetch fetch.2).run store.container with
    | .ok data container => (.ok data, container)
    | .error e container => (.error e, container)
  { store with
    container
    fetches := { store.fetches with arrived := store.fetches.arrived.insert fetch.1 outcome } }

def settle (store : Store τ) : Store τ :=
  let tier := runOrphans store.container.tier store.orphans
  let idle :=
    { store with
      container := { store.container with tier }
      orphans := []
      fetches := { store.fetches with queue := [] } }
  store.fetches.queue.foldl runFetch idle

def advance (store : Store τ) (milliseconds : Nat) : Store τ :=
  let settled := store.settle
  { settled with now := settled.now + milliseconds }

end Store
end TieredStore
