import Depot.FileSystem.Change

set_option autoImplicit false

namespace Depot.FileSystem

/-- A stream that is open on a file. -/
structure Stream where
  node : NodeId
  requestor : String
  stamp : Stamp
  buffer : Bytes

/-- Opens a stream on a file, which will get the given stamp. -/
def openStream (fs : FileSystem) (id : NodeId) (requestor : String) (stamp : Stamp) :
    Except Fault Stream := do
  let node ← fs.liveNode id
  if node.content matches .directory _ then throw (.isADirectory (fs.path id))
  if node.writable then return { node := id, requestor, stamp, buffer := [] }
  else throw (.readOnly (fs.path id))

def Stream.write (stream : Stream) (data : Bytes) : Stream :=
  { stream with buffer := stream.buffer ++ data }

/-- Closes a stream. Its stamp must be newer than that of the file. -/
def closeStream (fs : FileSystem) (stream : Stream) : Except Fault FileSystem := do
  let node ← fs.liveNode stream.node
  if !node.writable then throw (.readOnly (fs.path stream.node))
  if stream.stamp ≤ node.stamp then
    throw (.staleStamp (fs.path stream.node) node.stamp stream.stamp)
  match node.content with
  | .directory _ => throw (.isADirectory (fs.path stream.node))
  | .file _ =>
    let fs := fs.update stream.node fun node =>
      { node with content := .file stream.buffer, stamp := stream.stamp }
    let fs := { fs with lastStamp := max fs.lastStamp stream.stamp }
    return fs.note (.contentChanged stream.requestor stream.node (fs.path stream.node) node.stamp
      stream.stamp)

end Depot.FileSystem
