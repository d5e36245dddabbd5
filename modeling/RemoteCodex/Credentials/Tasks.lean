import RemoteCodex.Credentials.Store
import RemoteCodex.Interact.Runs

/-!
# Who writes credentials, and who deletes them

A writer saves a password or a secret setting: it shares the lock with other
writers from its permit to its end. A cleanup has the lock for itself. Between
any two steps others may run, a task may be cancelled, or its process may crash;
a vault operation that has begun goes on after its task is cancelled.
-/

namespace RemoteCodex.Credentials

open Interact

inductive Purpose
  /-- `authentication::connect` with a new password. -/
  | password (server : String)
  /-- `set_secret`. -/
  | secret (server key : String) (expected : Nat)
  deriving DecidableEq, Repr

/-- `orphaned`: the task is gone, and its write to the vault is still under way. -/
inductive Phase
  | waiting
  | permitted
  | ready
  | reserved
  | stored
  | authenticated
  | committed
  | failed
  | orphaned
  | ended
  deriving DecidableEq, Repr

/-- The writer has a share of the lock. -/
def Phase.holds : Phase → Bool
  | .waiting | .ended => false
  | _ => true

/-- The row is there, and what comes next may still fail. -/
def Phase.begun : Phase → Bool
  | .reserved | .stored | .authenticated | .committed => true
  | _ => false

structure Writer where
  purpose : Purpose
  value : String
  reference : String
  previous : Option String := none
  phase : Phase := .waiting
  deriving DecidableEq, Repr

/-- A password is tried before it is activated. -/
def Writer.proves (w : Writer) : Bool := w.purpose matches .password _

inductive Cleanup
  | wanted
  | locked
  | deleting (todo : List RetiredCredential)
  /-- The vault has no entry of the first one any more. -/
  | forgetting (credential : RetiredCredential) (todo : List RetiredCredential)
  | ended
  deriving DecidableEq, Repr

def Cleanup.holds : Cleanup → Bool
  | .wanted | .ended => false
  | _ => true

/-- The credentials a cleanup still deletes. -/
def Cleanup.todo : Cleanup → List RetiredCredential
  | .deleting todo => todo
  | .forgetting credential todo => credential :: todo
  | _ => []

/-- The store, the vault and the tasks; `deleting` are the deletions whose
cleanup was cancelled, `drawn` every reference that was drawn, and `proven` the
references a handshake succeeded with, with the password. -/
structure Keyring where
  store : Store := {}
  vault : Table String String := ∅
  writers : Table Nat Writer := ∅
  cleanups : Table Nat Cleanup := ∅
  deleting : List String := []
  drawn : List String := []
  proven : List (String × String) := []
  deriving DecidableEq

inductive WriterStep
  | permit
  | read
  | reserve (target : String)
  | put
  | handshake (target : String)
  | commit
  /-- What is being done fails; a write to the vault may have been carried out. -/
  | fail (stored : Bool)
  | retire (done : Bool)
  | finish
  | cancel (writing : Bool)
  | settle (stored : Bool)
  | crash (stored : Bool)
  deriving DecidableEq, Repr

inductive CleanupStep
  | lock
  | list
  | delete (gone done : Bool)
  | forget (done : Bool)
  | unlock
  | cancel (deleting : Bool)
  deriving DecidableEq, Repr

inductive KeyringEvent
  | saveConnection (server : String)
  | removeServer (server : String)
  | forgetPassword (server : String)
  | setMany (server : String) (changes : List (String × String)) (expected : Nat)
  | unset (server key : String) (expected : Nat)
  | tick (seconds : Nat)
  | start (n : Nat) (purpose : Purpose) (value reference : String)
  | writer (n : Nat) (step : WriterStep)
  | look (n : Nat)
  | cleanup (n : Nat) (step : CleanupStep)
  | settleDelete (reference : String) (done : Bool)
  deriving DecidableEq, Repr

namespace Keyring

def held (s : Keyring) : Bool := s.writers.values.any fun w => w.phase.holds

def exclusive (s : Keyring) : Bool := s.cleanups.values.any Cleanup.holds

def setWriter (s : Keyring) (n : Nat) (w : Writer) : Keyring := { s with writers := s.writers.insert n w }

def setCleanup (s : Keyring) (n : Nat) (c : Cleanup) : Keyring := { s with cleanups := s.cleanups.insert n c }

/-- The write to the vault, if it is done. -/
def putVault (s : Keyring) (w : Writer) (done : Bool) : Keyring :=
  if done then { s with vault := s.vault.insert w.reference w.value } else s

def deleteVault (s : Keyring) (reference : String) (done : Bool) : Keyring :=
  if done then { s with vault := s.vault.erase reference } else s

variable {ν : Type} [DecidableEq ν]

/-- A transaction's result, if it is accepted. -/
def accept (s : Keyring) : Except ClientError (Nat × Store) → Keyring
  | .ok (_, store) => { s with store }
  | .error _ => s

/-- A secret is set if the settings have the expected revision and take the value. -/
def admitted (r : Rules ν) (s : Keyring) (value reference : String) : Purpose → Bool
  | .password _ => true
  | .secret server key expected =>
    match s.store.configSnapshot r server with
    | .ok (revision, layer) => revision = expected && (layer.set r key (.secret reference value)).isOk
    | .error _ => false

/-- The transaction that makes the credential the one in use. -/
def committed (r : Rules ν) (s : Keyring) (w : Writer) : Except ClientError Store :=
  match w.purpose with
  | .password server => s.store.activateSshCredential server w.previous w.reference
  | .secret server key expected =>
    (s.store.setConfig r server key (.secret w.reference w.value) expected).map Prod.snd

def reserved (s : Keyring) (w : Writer) (target : String) : Except ClientError Store :=
  match w.purpose with
  | .password server => s.store.reserveSshCredential server w.reference target
  | .secret _ _ _ => .ok (s.store.reserveCredential w.reference)

/-- The store after the reservation was given up. -/
def retired (s : Keyring) (w : Writer) : Store :=
  if w.proves then s.store.retireSshCredential w.reference else s.store.retireCredential w.reference

/-- What a step of writer `n` makes of the state. -/
def nextWriter (r : Rules ν) (s : Keyring) (n : Nat) (w : Writer) : WriterStep → Option Keyring
  | .permit =>
    if w.phase = .waiting && !s.exclusive then
      some (s.setWriter n { w with phase := if w.proves then .permitted else .ready })
    else none
  | .read =>
    match w.purpose, w.phase with
    | .password server, .permitted =>
      if server ∈ s.store.connections then
        some (s.setWriter n { w with previous := s.store.sshCredential server, phase := .ready })
      else some (s.setWriter n { w with phase := .ended })
    | _, _ => none
  | .reserve target =>
    if w.phase = .ready then
      match s.reserved w target with
      | .ok store => some ({ s with store }.setWriter n { w with phase := .reserved })
      | .error _ => some (s.setWriter n { w with phase := .ended })
    else none
  | .put => if w.phase = .reserved then some ((s.putVault w true).setWriter n { w with phase := .stored }) else none
  | .handshake target =>
    match w.purpose, w.phase with
    | .password server, .stored =>
      if s.store.sshCredentialTarget server w.reference = .ok target && s.vault.lookup w.reference = some w.value then
        some ({ s with proven := (w.reference, w.value) :: s.proven }.setWriter n { w with phase := .authenticated })
      else none
    | _, _ => none
  | .commit =>
    if w.phase = (if w.proves then .authenticated else .stored) then
      match s.committed r w with
      | .ok store => some ({ s with store }.setWriter n { w with phase := .committed })
      | .error _ => some (s.setWriter n { w with phase := .failed })
    else none
  | .fail stored =>
    if w.phase.begun then
      some ((s.putVault w (stored && w.phase = .reserved)).setWriter n { w with phase := .failed })
    else if w.phase = .waiting || w.phase = .permitted || w.phase = .ready then
      some (s.setWriter n { w with phase := .ended })
    else none
  | .retire done =>
    if w.phase = .failed then
      some ({ s with store := if done then s.retired w else s.store }.setWriter n { w with phase := .ended })
    else none
  | .finish => if w.phase = .committed then some (s.setWriter n { w with phase := .ended }) else none
  | .cancel writing =>
    if w.phase = .orphaned then none
    else some (s.setWriter n { w with phase := if writing && w.phase = .reserved then .orphaned else .ended })
  | .settle stored =>
    if w.phase = .orphaned then some ((s.putVault w stored).setWriter n { w with phase := .ended }) else none
  | .crash stored =>
    some ((s.putVault w (stored && (w.phase = .reserved || w.phase = .orphaned))).setWriter n { w with phase := .ended })

/-- What a step of cleanup `n` makes of the state. -/
def nextCleanup (s : Keyring) (n : Nat) (c : Cleanup) : CleanupStep → Option Keyring
  | .lock => if c = .wanted && !s.held && !s.exclusive then some (s.setCleanup n .locked) else none
  | .list =>
    if c = .locked then
      some ({ s with store := s.store.retireStale }.setCleanup n (.deleting s.store.retireStale.retiredCredentials))
    else none
  | .delete gone done =>
    match c with
    | .deleting (credential :: todo) =>
      some ((s.deleteVault credential.reference gone).setCleanup n
        (if done && gone then .forgetting credential todo else .deleting todo))
    | _ => none
  | .forget done =>
    match c with
    | .forgetting credential todo =>
      some ({ s with store := if done then s.store.forgetRetiredCredential credential else s.store }.setCleanup n
        (.deleting todo))
    | _ => none
  | .unlock => if c = .deleting [] then some (s.setCleanup n .ended) else none
  | .cancel deleting =>
    match c with
    | .deleting (credential :: _) =>
      some ({ s with deleting := if deleting then credential.reference :: s.deleting else s.deleting }.setCleanup n .ended)
    | _ => some (s.setCleanup n .ended)

def next (r : Rules ν) (s : Keyring) : KeyringEvent → Option Keyring
  | .saveConnection server =>
    if server ∈ s.store.connections ∨ (s.store.revisions.lookup server).isSome then none
    else some { s with store := s.store.saveConnection server }
  | .removeServer server => some { s with store := s.store.removeServer server }
  | .forgetPassword server => some { s with store := s.store.forgetSshCredentials server }
  | .setMany server changes expected => some (s.accept (s.store.setManyConfig r server changes expected))
  | .unset server key expected => some (s.accept (s.store.unsetConfig r server key expected))
  | .tick seconds => some { s with store := { s.store with now := s.store.now + seconds } }
  | .start n purpose value reference =>
    if reference ∈ s.drawn || (s.writers.lookup n).isSome || !s.admitted r value reference purpose then none
    else some ({ s with drawn := reference :: s.drawn }.setWriter n { purpose, value, reference })
  | .writer n step => (s.writers.lookup n).bind fun w => s.nextWriter r n w step
  | .look n =>
    if (s.cleanups.lookup n).isSome || !s.store.hasCredentialCleanup then none else some (s.setCleanup n .wanted)
  | .cleanup n step => (s.cleanups.lookup n).bind fun c => s.nextCleanup n c step
  | .settleDelete reference done =>
    if reference ∈ s.deleting then
      some ({ s with deleting := s.deleting.erase reference }.deleteVault reference done)
    else none

end Keyring

end RemoteCodex.Credentials
