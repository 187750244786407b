import Mathlib.Data.Finmap
import Prpc.Lib.PathText

/-!
What `RpcContext` keeps about the services the Master has announced: `update_service_info` builds the
tables from the list of services and the client sockets, and `get_client_frontend_by_sid` finds the
`FrontEnd` of a server in them. Identifiers are machine integers. A failed `SCHECK` is `none`.
-/

namespace Prpc.ServiceInfo
open Lib

structure ServerInfo where
  serverId : Int32
  globalRank : Int16
  deriving DecidableEq

structure RpcServiceInfo where
  rpcServiceName : Text
  rpcId : Int32
  servers : List ServerInfo
  deriving DecidableEq

def rpcSidPack (rpcId sid : Int32) : BitVec 64 := BitVec.ofInt 64 (rpcId.toInt * 1000000007 + sid.toInt)

structure Context (F : Type) where
  clientSockets : Finmap fun _ : Int16 => F
  rpcInfo : List RpcServiceInfo
  rpcServerInfo : Finmap fun _ : Int32 => Finmap fun _ : Int32 => ServerInfo
  rpcServerFrontend : Finmap fun _ : Int32 => List F
  rpcServerIdFrontend : Finmap fun _ : BitVec 64 => F

structure Iteration (α : Type) where
  visit : List α → List α
  perm : ∀ l, (visit l).Perm l

variable {F : Type}

def RpcServiceInfo.keepKnown (clientSockets : Finmap fun _ : Int16 => F) (info : RpcServiceInfo) :
    RpcServiceInfo :=
  { info with servers := info.servers.filter fun server => server.globalRank ∈ clientSockets }

def emplaceInfo (rpcInfo : List RpcServiceInfo) (info : RpcServiceInfo) : List RpcServiceInfo :=
  if rpcInfo.any fun other => other.rpcServiceName = info.rpcServiceName then rpcInfo
  else rpcInfo ++ [info]

namespace Context

def clear (c : Context F) : Context F :=
  { c with rpcInfo := [], rpcServerInfo := ∅, rpcServerFrontend := ∅, rpcServerIdFrontend := ∅ }

def addServer (c : Context F) (rpcId : Int32) (server : ServerInfo) : Option (Context F) :=
  match c.clientSockets.lookup server.globalRank with
  | none => none
  | some frontend =>
    let c := { c with
      rpcServerInfo := c.rpcServerInfo.insert rpcId
        (((c.rpcServerInfo.lookup rpcId).getD ∅).insert server.serverId server)
      rpcServerFrontend := c.rpcServerFrontend.insert rpcId
        ((c.rpcServerFrontend.lookup rpcId).getD [] ++ [frontend]) }
    if rpcSidPack rpcId server.serverId ∈ c.rpcServerIdFrontend then none
    else some { c with
      rpcServerIdFrontend := c.rpcServerIdFrontend.insert (rpcSidPack rpcId server.serverId) frontend }

def addService (c : Context F) (info : RpcServiceInfo) : Option (Context F) :=
  info.servers.foldlM (fun c server => c.addServer info.rpcId server) c

def updateServiceInfo (order : Iteration RpcServiceInfo) (c : Context F) (list : List RpcServiceInfo) :
    Option (Context F) :=
  let serviceList := list.map (RpcServiceInfo.keepKnown c.clientSockets)
  let rpcInfo := order.visit (serviceList.foldl emplaceInfo [])
  rpcInfo.foldlM addService { c.clear with rpcInfo := rpcInfo }

def getClientFrontendByRank (c : Context F) (available : F → Bool) (rank : Int16) : Option F :=
  (c.clientSockets.lookup rank).filter available

def getClientFrontendBySid (c : Context F) (available : F → Bool) (rpcId serverId : Int32) : Option F :=
  match (c.rpcServerIdFrontend.lookup (rpcSidPack rpcId serverId)).filter available with
  | some frontend => some frontend
  | none =>
    match c.rpcServerInfo.lookup rpcId with
    | none => none
    | some servers =>
      match servers.lookup serverId with
      | none => none
      | some server => c.getClientFrontendByRank available server.globalRank

end Context

end Prpc.ServiceInfo
