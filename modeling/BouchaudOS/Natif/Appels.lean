import BouchaudOS.Foundations.Bytes
import BouchaudOS.Foundations.Utf8
import BouchaudOS.Natif.Table

/-!
# Native calls

The calls of `src/kernel/native/abi/dispatch.rs` that create, copy, move or drop handles,
over the tables of all processes (`handle/registry.rs`) and the queues of all channels
(`ipc/channel.rs`). A call is one step.

What a call reads in user memory, and whether it may write there, is given with the call;
the same holds for the outcome of `lance_enfant`. Wait sets, events and shared regions
hold no handle, so of these objects only the creation is modelled.
-/

namespace BouchaudOS.Natif

open Bytes Function

inductive Object
  | channel (canal : ℕ) (side : Bool)
  | event
  | waitSet
  | sharedRegion
  | process (pid : ℕ)
  | update
  deriving DecidableEq

def Object.kind : Object → ObjectKind
  | channel _ _ => .channel
  | event => .event
  | waitSet => .waitSet
  | sharedRegion => .sharedRegion
  | process _ => .process
  | update => .update

structure Message where
  bytes : List UInt8
  handles : List Entry

def maxMessageBytes : ℕ := 256 * 1024
def maxMessageHandles : ℕ := 16
def maxQueuedMessages : ℕ := 64
def maxQueuedBytes : ℕ := 2 * 1024 * 1024

/-- The two queues of a channel; `queues side` holds what `side` will receive. -/
structure ChannelInner where
  queues : Bool → List Message
  queuedBytes : Bool → ℕ
  closed : Bool → Bool

namespace ChannelInner

def new : ChannelInner := ⟨fun _ => [], fun _ => 0, fun _ => false⟩

variable (c : ChannelInner) (side : Bool)

def send (m : Message) : Except Error (ℕ × ChannelInner) :=
  if c.closed !side then .error .peerClosed
  else if maxQueuedMessages ≤ (c.queues !side).length ∨
      maxQueuedBytes < c.queuedBytes (!side) + m.bytes.length then .error .queueFull
  else .ok (m.bytes.length,
    { c with
      queues := update c.queues (!side) (c.queues (!side) ++ [m])
      queuedBytes := update c.queuedBytes (!side) (c.queuedBytes (!side) + m.bytes.length) })

def frontSizes : Except Error (ℕ × ℕ) :=
  match c.queues side with
  | m :: _ => .ok (m.bytes.length, m.handles.length)
  | [] => if c.closed !side then .error .peerClosed else .error .wouldBlock

def recv : Except Error (Message × ChannelInner) :=
  match c.queues side with
  | m :: reste => .ok (m,
    { c with
      queues := update c.queues side reste
      queuedBytes := update c.queuedBytes side (c.queuedBytes side - m.bytes.length) })
  | [] => if c.closed !side then .error .peerClosed else .error .wouldBlock

def requeueFront (m : Message) : ChannelInner :=
  { c with
    queues := update c.queues side (m :: c.queues side)
    queuedBytes := update c.queuedBytes side (c.queuedBytes side + m.bytes.length) }

end ChannelInner

/-- An object and the rights of the first handle to it, which no call reads. -/
structure Installe where
  object : Object
  premier : Rights

/-- Tables by process, objects and channels by number. -/
structure System where
  registry : List (ℕ × HandleTable)
  objects : List Installe
  channels : List ChannelInner

namespace System

def vide : System := ⟨[], [], []⟩

def tableFor (s : System) (pid : ℕ) : HandleTable := (s.registry.lookup pid).getD .empty

end System

/-- The row of `pid`, rewritten or added. -/
def poseTable (pid : ℕ) (t : HandleTable) : List (ℕ × HandleTable) → List (ℕ × HandleTable)
  | [] => [(pid, t)]
  | row :: l => if pid = row.1 then (pid, t) :: l else row :: poseTable pid t l

namespace System

variable (s : System)

def setTable (pid : ℕ) (t : HandleTable) : System :=
  { s with registry := poseTable pid t s.registry }

def releaseProcess (pid : ℕ) : System :=
  { s with registry := s.registry.filter fun row => row.1 ≠ pid }

def object (o : ℕ) : Option Object := s.objects[o]?.map Installe.object

def channel (c : ℕ) : ChannelInner := s.channels.getD c .new

def setChannel (c : ℕ) (k : ChannelInner) : System :=
  { s with channels := s.channels.set c k }

/-- `install`: a new object with its first handle. -/
def install (pid : ℕ) (object : Object) (rights : Rights) : Except Error (HandleId × System) :=
  match (s.tableFor pid).insertLocked (.installe (.processus pid) s.objects.length rights) with
  | .error x => .error x
  | .ok (id, t) =>
    .ok (id, { s.setTable pid t with objects := s.objects ++ [⟨object, rights⟩] })

def closeHandle (pid : ℕ) (id : HandleId) : System :=
  s.setTable pid ((s.tableFor pid).close id)

/-- The table lookup of a call that wants one kind of object. -/
def lookupKind (pid : ℕ) (id : HandleId) (required : Rights) (kind : ObjectKind) : Except Error Entry := do
  let e ← (s.tableFor pid).lookup id required
  match s.object e.object with
  | none => .error .wrongType
  | some o =>
    verifieGenre o.kind kind
    return e

/-- `same_channel`, for two objects of which either may be no channel. -/
def sameChannel (o o' : ℕ) : Bool :=
  match s.object o, s.object o' with
  | some (.channel c _), some (.channel c' _) => c = c'
  | _, _ => false

end System

/-- A handle and where it is. -/
abbrev Prise := Lieu × Entry

def HandleTable.prises (t : HandleTable) (pid : ℕ) : Multiset Prise :=
  t.entries.map (Prod.mk (.processus pid))

def Message.prises (m : Message) : Multiset Prise :=
  (m.handles : Multiset Entry).map (Prod.mk .message)

def prisesFile (l : List Message) : Multiset Prise := (l.map Message.prises).sum

def ChannelInner.prises (c : ChannelInner) : Multiset Prise :=
  prisesFile (c.queues false) + prisesFile (c.queues true)

namespace System

/-- Every handle in every table and in every queued message. -/
def prises (s : System) : Multiset Prise :=
  (s.registry.map fun row => row.2.prises row.1).sum + (s.channels.map ChannelInner.prises).sum

/-- Some handle designates this end of channel `c`. -/
def tenue (s : System) (c : ℕ) (side : Bool) : Bool :=
  0 < s.prises.countP fun x => s.object x.2.object = some (.channel c side)

/-- An end of a channel is dropped once nothing refers to it, and the queues go with the
second end. -/
def lache (s : System) (c : ℕ) : System :=
  let k := s.channel c
  let closed := fun side => k.closed side || !s.tenue c side
  s.setChannel c
    { k with
      closed := closed
      queues := if closed false && closed true then fun _ => [] else k.queues }

end System

/-- What user memory answers to a call; the first argument tells the accesses of one
call apart. -/
structure Usercopy where
  read : ℕ → ℕ → ℕ → Except Error (List UInt8)
  validateWrite : ℕ → ℕ → ℕ → Except Error Unit
  write : ℕ → ℕ → List UInt8 → Except Error Unit

namespace Usercopy

variable (u : Usercopy)

variable (instant addr count : ℕ)

def readHandles : Except Error (List HandleId) :=
  if count = 0 then .ok []
  else do
    let brut ← u.read instant addr (count * 8)
    return (List.range (brut.length / 8)).map fun k =>
      .fromRaw (ofLeBytes (slice brut (8 * k) 8))

def readRights : Except Error (List Rights) := do
  let brut ← u.read instant addr (count * 4)
  return (List.range (brut.length / 4)).map fun k =>
    BitVec.ofNat 32 (ofLeBytes (slice brut (4 * k) 4))

/-- The masks of a call that passes none with a null pointer. -/
def readMasques (defaut : List Rights) : Except Error (List Rights) :=
  if addr = 0 then .ok defaut else u.readRights instant addr count

def writeHandles (instant addr : ℕ) (ids : List HandleId) : Except Error Unit :=
  u.write instant addr (ids.flatMap fun id => leBytes 8 id.raw)

/-- `RecvMeta` and `SpawnResult` are two 64-bit words. -/
def writePair (instant addr a b : ℕ) : Except Error Unit :=
  u.write instant addr (leBytes 8 a ++ leBytes 8 b)

end Usercopy

abbrev Args := Fin 6 → ℕ

instance neZero_six : NeZero 6 := ⟨Nat.succ_ne_zero 5⟩

namespace System

/-- `CHANNEL_CREATE`. -/
def pairToUser (s : System) (pid : ℕ) (u : Usercopy) (out : ℕ) : Except Error ℕ × System :=
  if out = 0 then (.error .fault, s)
  else
    let c := s.channels.length
    let s₀ : System := { s with channels := s.channels ++ [ChannelInner.new] }
    match s₀.install pid (.channel c false) .channelDefault with
    | .error x => (.error x, s₀)
    | .ok (left, s₁) =>
      match s₁.install pid (.channel c true) .channelDefault with
      | .error x => (.error x, s₁.closeHandle pid left)
      | .ok (right, s₂) =>
        match u.writePair 0 out left.raw right.raw with
        | .error x => (.error x, (s₂.closeHandle pid left).closeHandle pid right)
        | .ok () => (.ok 0, s₂)

/-- The user data of a send: the bytes, and each handle with its mask. -/
def lisEnvoi (u : Usercopy) (args : Args) (masquesPtr : ℕ) :
    Except Error (List UInt8 × List (HandleId × Rights)) :=
  if maxMessageBytes < args 2 ∨ maxMessageHandles < args 4 then .error .tooLarge
  else do
    let bytes ← u.read 0 (args 1) (args 2)
    let ids ← u.readHandles 1 (args 3) (args 4)
    let masques ← u.readMasques 2 masquesPtr (args 4) []
    if masques ≠ [] ∧ masques.length ≠ ids.length then .error .invalidArgument
    else .ok (bytes, ids.zipIdx.map fun x => (x.1, masques.getD x.2 .tous))

/-- The handles of a message; neither end of the channel travels through it. -/
def exporteMessage (s : System) (t : HandleTable) (endpoint : Entry) :
    List (HandleId × Rights) → Except Error (List Entry)
  | [] => .ok []
  | (id, masque) :: l => do
    let (e, rights) ← t.exportHandle id masque
    if s.sameChannel endpoint.object e.object then .error .invalidArgument
    else
      let suite ← s.exporteMessage t endpoint l
      return e.derive .message rights :: suite

def channelSendAvecMasques (s : System) (pid : ℕ) (u : Usercopy) (args : Args)
    (masquesPtr : ℕ) : Except Error (ℕ × System) := do
  let (bytes, demandes) ← lisEnvoi u args masquesPtr
  let endpoint ← s.lookupKind pid (.fromRaw (args 0)) .write .channel
  let transferred ← s.exporteMessage (s.tableFor pid) endpoint demandes
  match s.object endpoint.object with
  | some (.channel c side) =>
    let (n, k) ← (s.channel c).send side ⟨bytes, transferred⟩
    return (n, s.setChannel c k)
  | _ => .error .wrongType

def channelSend (s : System) (pid : ℕ) (u : Usercopy) (args : Args) : Except Error (ℕ × System) :=
  s.channelSendAvecMasques pid u args 0

/-- The destinations are checked before any handle is installed. -/
def copyoutPreflight (u : Usercopy) (args : Args) (m : Message) : Except Error Unit := do
  u.validateWrite 1 (args 1) m.bytes.length
  u.validateWrite 2 (args 3) (m.handles.length * 8)
  if args 5 ≠ 0 then u.validateWrite 3 (args 5) 16 else .ok ()

def copyout (u : Usercopy) (args : Args) (m : Message) (installed : List HandleId) : Except Error Unit := do
  u.write 4 (args 1) m.bytes
  u.writeHandles 5 (args 3) installed
  if args 5 ≠ 0 then u.writePair 6 (args 5) m.bytes.length installed.length else .ok ()

def requeueFront (s : System) (c : ℕ) (side : Bool) (m : Message) : System :=
  s.setChannel c ((s.channel c).requeueFront side m)

/-- The answer to a buffer too small for the message. -/
def tropPetit (u : Usercopy) (instant metaPtr : ℕ) (m : ℕ × ℕ) : Error :=
  if metaPtr = 0 then .bufferTooSmall
  else
    match u.writePair instant metaPtr m.1 m.2 with
    | .error x => x
    | .ok () => .bufferTooSmall

/-- `channel_recv` from the point where the message is out of its queue. -/
def livre (s : System) (pid c : ℕ) (side : Bool) (m : Message) (u : Usercopy) (args : Args) :
    Except Error ℕ × System :=
  if args 2 < m.bytes.length ∨ args 4 < m.handles.length then
    (.error (tropPetit u 7 (args 5) (m.bytes.length, m.handles.length)), s.requeueFront c side m)
  else
    match copyoutPreflight u args m with
    | .error x => (.error x, s.requeueFront c side m)
    | .ok () =>
      match (s.tableFor pid).insertMany (m.handles.map fun e => e.derive (.processus pid) e.rights) with
      | (.error x, t) => (.error x, (s.setTable pid t).requeueFront c side m)
      | (.ok installed, t) =>
        match copyout u args m installed with
        | .error x =>
          (.error x, (s.setTable pid (t.closeAll installed)).requeueFront c side m)
        | .ok () => (.ok m.bytes.length, s.setTable pid t)

def channelRecv (s : System) (pid : ℕ) (u : Usercopy) (args : Args) : Except Error ℕ × System :=
  match s.lookupKind pid (.fromRaw (args 0)) .read .channel with
  | .error x => (.error x, s)
  | .ok endpoint =>
    match s.object endpoint.object with
    | some (.channel c side) =>
      match (s.channel c).frontSizes side with
      | .error x => (.error x, s)
      | .ok needed =>
        if args 2 < needed.1 ∨ args 4 < needed.2 then
          (.error (tropPetit u 0 (args 5) needed), s)
        else
          match (s.channel c).recv side with
          | .error x => (.error x, s)
          | .ok (m, k) => (s.setChannel c k).livre pid c side m u args
    | _ => (.error .wrongType, s)

/-- What becomes of `lance_enfant`: refused before the new process is prepared, refused
after, or started. `introuvable` tells the two refusals apart that callers see. -/
inductive Lancement
  | refuse (introuvable : Bool)
  | echoue (fils : ℕ) (introuvable : Bool)
  | lance (fils : ℕ)

def refusLancement (introuvable : Bool) : Error :=
  if introuvable then .notFound else .accessDenied

/-- The handles of a new process with the rights they keep. -/
def exporteFils (t : HandleTable) : List (HandleId × Rights) → Except Error (List (Entry × Rights))
  | [] => .ok []
  | (id, masque) :: l => do
    let e ← t.exportHandle id masque
    let suite ← exporteFils t l
    return e :: suite

/-- The user data of a spawn: the path, and each handle with its mask. -/
def lisNaissance (u : Usercopy) (args : Args) : Except Error (List UInt8 × List (HandleId × Rights)) :=
  if args 1 = 0 ∨ 255 < args 1 then .error .invalidArgument
  else if 8 < args 3 then .error .tooLarge
  else do
    u.validateWrite 0 (args 5) 16
    let path ← u.read 1 (args 0) (args 1)
    if Utf8.lossy path ≠ path ∨ path.head? ≠ some 0x2f ∨ 0 ∈ path then .error .invalidArgument
    else
      let ids ← u.readHandles 2 (args 2) (args 3)
      let masques ← u.readMasques 3 (args 4) (args 3) (List.replicate (args 3) .tous)
      return (path, ids.zip masques)

/-- The handles installed in the new process, and whether all were. -/
def prepare (s : System) (fils : ℕ) (l : List (Entry × Rights)) : Bool × System :=
  match (s.tableFor fils).insertMany (l.map fun x => x.1.derive (.processus fils) x.2) with
  | (.error _, t) => (false, s.setTable fils t)
  | (.ok _, t) => (true, s.setTable fils t)

/-- `process_spawn` once the new process runs. -/
def suitFils (s : System) (pid : ℕ) (u : Usercopy) (out fils : ℕ) (complet : Bool) :
    Except Error ℕ × System :=
  if !complet then (.error .noSpace, s)
  else
    match s.install pid (.process fils) .processDefault with
    | .error x => (.error x, s)
    | .ok (id, s') =>
      match u.writePair 4 out fils id.raw with
      | .error x => (.error x, s'.closeHandle pid id)
      | .ok () => (.ok 0, s')

def processSpawn (s : System) (pid : ℕ) (u : Usercopy) (args : Args) (lancement : Lancement) :
    Except Error ℕ × System :=
  match lisNaissance u args with
  | .error x => (.error x, s)
  | .ok (_, demandes) =>
    match exporteFils (s.tableFor pid) demandes with
    | .error x => (.error x, s)
    | .ok l =>
      match lancement with
      | .refuse introuvable => (.error (refusLancement introuvable), s)
      | .echoue fils introuvable =>
        (.error (refusLancement introuvable), (s.prepare fils l).2)
      | .lance fils => (s.prepare fils l).2.suitFils pid u (args 5) fils (s.prepare fils l).1

/-- A call that installs one object and returns its handle. -/
def creeObjet (s : System) (pid : ℕ) (object : Object) (rights : Rights) : Except Error ℕ × System :=
  match s.install pid object rights with
  | .error x => (.error x, s)
  | .ok (id, s') => (.ok id.raw, s')

def maxSharedRegion : ℕ := 64 * 1024 * 1024

variable (s : System)

def shmCreate (pid size : ℕ) : Except Error ℕ × System :=
  if size = 0 ∨ maxSharedRegion < size then (.error .tooLarge, s)
  else s.creeObjet pid .sharedRegion .shmDefault

def rend : Except Error (ℕ × System) → Except Error ℕ × System
  | .error x => (.error x, s)
  | .ok (n, s') => (.ok n, s')

def handleClose (pid raw : ℕ) : Except Error ℕ × System :=
  match (s.tableFor pid).closeLocked (.fromRaw raw) with
  | .error x => (.error x, s)
  | .ok (_, t) => (.ok 0, s.setTable pid t)

def handleDup (pid raw droits : ℕ) : Except Error ℕ × System :=
  match (s.tableFor pid).duplicate pid (.fromRaw raw) (BitVec.ofNat 32 droits) with
  | .error x => (.error x, s)
  | .ok (id, t) => (.ok id.raw, s.setTable pid t)

/-- `lance_superviseur`: the only origin of update objects. -/
def lanceSuperviseur (pid : ℕ) : Except Error ℕ × System :=
  let r := s.creeObjet pid .update .superviseur
  r.2.creeObjet pid .update .installation

end System

/-- A step: a native call of a process, what the kernel does at the start of the
supervisor and at the death of a process, or the drop of an end of a channel. -/
inductive Appel
  | handleClose (pid raw : ℕ)
  | handleDup (pid raw droits : ℕ)
  | channelCreate (pid : ℕ) (u : Usercopy) (out : ℕ)
  | channelSend (pid : ℕ) (u : Usercopy) (args : Args)
  | channelSendAttenue (pid : ℕ) (u : Usercopy) (args : Args)
  | channelRecv (pid : ℕ) (u : Usercopy) (args : Args)
  | eventCreate (pid : ℕ)
  | waitsetCreate (pid : ℕ)
  | shmCreate (pid size : ℕ)
  | processSpawn (pid : ℕ) (u : Usercopy) (args : Args) (lancement : System.Lancement)
  | lanceSuperviseur (pid : ℕ)
  | mort (pid : ℕ)
  | lache (canal : ℕ)

def System.execute (s : System) : Appel → Except Error ℕ × System
  | .handleClose pid raw => s.handleClose pid raw
  | .handleDup pid raw droits => s.handleDup pid raw droits
  | .channelCreate pid u out => s.pairToUser pid u out
  | .channelSend pid u args => s.rend (s.channelSend pid u args)
  | .channelSendAttenue pid u args => s.rend (s.channelSendAvecMasques pid u args (args 5))
  | .channelRecv pid u args => s.channelRecv pid u args
  | .eventCreate pid => s.creeObjet pid .event .eventDefault
  | .waitsetCreate pid => s.creeObjet pid .waitSet .waitsetDefault
  | .shmCreate pid size => s.shmCreate pid size
  | .processSpawn pid u args lancement => s.processSpawn pid u args lancement
  | .lanceSuperviseur pid => s.lanceSuperviseur pid
  | .mort pid => (.ok 0, s.releaseProcess pid)
  | .lache canal => (.ok 0, s.lache canal)

def System.joue (s : System) (appels : List Appel) : System :=
  appels.foldl (fun s a => (s.execute a).2) s

end BouchaudOS.Natif
