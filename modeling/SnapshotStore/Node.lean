import SnapshotStore.Config
import SnapshotStore.Replica
import SnapshotStore.Size

/-! # Nodes

A node is built from its settings and the folder with its segments: a database with a journal, or
without one, or a replica.  It recovers what was logged and then listens for clients, and as a
master also for replicas.  What the network allows is a parameter; addresses are checked here. -/

namespace SnapshotStore

open Replication Segment

/-- What the network says to a request to listen: nothing, or why not. -/
structure Network where
  refusal : String → Option String

/-- A network on which nobody may listen. -/
def Network.closed : Network := ⟨fun _ => some "Cannot assign requested address (os error 99)"⟩

/-- The decimal digits of a port, with an optional plus sign. -/
def isPort (text : List Char) : Bool :=
  let digits := if text.head? = some '+' then text.drop 1 else text
  !digits.isEmpty && digits.all Char.isDigit && Size.decimal digits < 65536

/-- What is wrong with the form of an address, which is a host, a colon and a port. -/
def addressFlaw? (address : String) : Option String :=
  let chars := address.toList
  if !chars.contains ':' then some "invalid socket address"
  else if isPort (chars.reverse.takeWhile (· ≠ ':')).reverse then none
  else some "invalid port value"

/-- Listens on an address. -/
def Network.bind (network : Network) (address : String) : Outcome Unit :=
  match (addressFlaw? address).or (network.refusal address) with
  | none => .ok ()
  | some reason => .error (.network ("failed to bind " ++ address ++ ": " ++ reason))

/-- What a node runs. -/
inductive Service where
  | primary (database : Database Archive)
  | replica (replica : Replica)

/-- A node that is up. -/
structure Node where
  config : Config
  service : Service

namespace Node

/-- Builds and recovers what a node with some settings runs. -/
def build (config : Config) (folder : Folder) : Outcome Service := do
  config.validate
  let shards ← Shards.create config.shardCount fun _ => Height.ruler
  let archive := Archive.mount folder config.maxSegmentSize
  if config.role? = some .slave then
    let replica ← Replica.start archive shards config.sweepThreshold
    match replica.recover with
    | (.ok (), replica) => return .replica replica
    | (.error fault, _) => throw fault
  else
    let journal := if config.logEnabled then some (Journal.start archive config.batchSize) else none
    let database := Database.create (Coordinator.create shards journal config.sweepThreshold) false
    match database.recover with
    | (.ok (), database) => return .primary database
    | (.error fault, _) => throw fault

/-- Starts a node.  A master listens for replicas before it listens for clients. -/
def start (network : Network) (config : Config) (folder : Folder) : Outcome Node := do
  let service ← build config folder
  match config.replication with
  | some r => if r.role = .master then network.bind r.masterAddress
  | none => pure ()
  network.bind config.listenAddress
  return ⟨config, service⟩

/-- Whether the node refuses writes. -/
def isReplica (n : Node) : Bool :=
  match n.service with
  | .primary database => database.isReplica
  | .replica replica => replica.database.isReplica

/-- Answers a request of a client. -/
def handle (n : Node) (client : String) (request : Bytes) : Bytes × Node :=
  match n.service with
  | .primary database =>
    let (reply, database) := database.handle client request
    (reply, { n with service := .primary database })
  | .replica replica =>
    let (reply, database) := replica.database.handle client request
    (reply, { n with service := .replica { replica with database } })

/-- Ends the connection of a client. -/
def disconnect (n : Node) (client : String) : Node :=
  match n.service with
  | .primary database => { n with service := .primary (database.disconnect client) }
  | .replica replica =>
    { n with service := .replica { replica with
        database := replica.database.disconnect client } }

/-- Answers a request of a replica. -/
def serve (n : Node) (request : Bytes) : Bytes × Node :=
  match n.service with
  | .primary database =>
    let (reply, database) := database.serve request
    (reply, { n with service := .primary database })
  | .replica _ => (Delivery.failure.encode, n)

/-- Stops a node and gives back its folder: all connections end, then the journal is drained. -/
def stop (n : Node) (folder : Folder) : Folder :=
  match n.service with
  | .primary database =>
    let database := database.sessions.keys.foldl Database.disconnect database
    database.coordinator.close.journal.elim folder fun j => j.store.folder
  | .replica replica => replica.stop.follower.archive.folder

end Node
end SnapshotStore
