import TieredStore.Log.Load

/-!
# Log sessions

A session is a log together with what is left of it while it is closed, so that
it can be opened again over the same ledgers.
-/

namespace TieredStore

/-- A log that is open, or the ledgers that are there while it is not. -/
inductive LogSession
  | closed (medium : Ledgers)
  | opened (log : Log)

namespace LogSession

def log? : LogSession → Option Log
  | closed _ => none
  | opened log => some log

def ledgers : LogSession → Ledgers
  | closed medium => medium
  | opened log => log.medium

def setLedgers (session : LogSession) (medium : Ledgers) : LogSession :=
  match session with
  | closed _ => closed medium
  | opened log => opened { log with medium }

def close (session : LogSession) : LogSession := closed session.ledgers.release

/--
Closes the log and takes its lock anew.  As long as there are readers of the log
they hold the lock.
-/
def retake (session : LogSession) (read : Bool) : Except MediumError Unit × LogSession :=
  let medium := session.ledgers
  match Ledgers.acquire.run (if read then medium else medium.release) with
  | .error cause medium => (.error cause, closed medium)
  | .ok () medium => (.ok (), closed medium)

def load (session : LogSession) (config : Config) : Except Error Log × LogSession :=
  match Log.load config session.ledgers with
  | .ok log => (.ok log, opened log)
  | .error (e, medium) => (.error e, closed medium.release)

end LogSession
end TieredStore
