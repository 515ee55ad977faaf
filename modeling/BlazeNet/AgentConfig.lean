import BlazeNet.SchedulerDb

/-!
# The configuration of an agent and the addresses it registers

`Config::validate` and the part of `start` that makes up the addresses for `register`. Socket
addresses are a parameter with their parser and texts; the answer of the address probe is an input.
-/

namespace BlazeNet

inductive NodeType where
  | idc
  | cafe
  deriving DecidableEq

def NodeType.display : NodeType → String
  | .idc => "idc"
  | .cafe => "cafe"

/-- Socket addresses as texts: `parse`, `to_string`, and `to_string` of the ip. -/
structure SocketText (Sock : Type) where
  parse : String → Option Sock
  text : Sock → String
  ipText : Sock → String

/-- The fields that `validate` or `start` read. `compactThreshold` is the value of the `f64`, and
`none` where that is not a number or infinite. -/
structure Config where
  nodeType : NodeType
  dataDir : String
  concurrentGames : UInt32
  chunkConcurrency : UInt32
  diskFreeThreshold : UInt64
  compactThreshold : Option ℚ
  listenPort : UInt16
  tempTtlHours : UInt64
  downloadMbps : Option UInt64
  originEndpoint : Option String
  originAddr : Option String
  keepalivePort : Option UInt16
  externalAddr : Option String
  stunAddr : Option String
  controlAddr : Option String
  deriving DecidableEq

namespace Config

variable {Sock : Type} (net : SocketText Sock) (cfg : Config)

/-- `starts_with`. -/
def startsWith (text start : String) : Bool := start.toList.isPrefixOf text.toList

/-- The text of an optional address is one of a socket address. -/
def parses (addr : Option String) : Bool := match addr with
  | some addr => (net.parse addr).isSome
  | none => true

/-- The checks of `validate` in their order: what must hold, and the message otherwise. -/
def checks : List (Bool × String) :=
  [ (!cfg.dataDir.isEmpty, "data_dir 不能为空"),
    (!(cfg.concurrentGames = 0 || cfg.chunkConcurrency = 0),
      "concurrent_games 与 chunk_concurrency 必须大于 0"),
    (!(cfg.diskFreeThreshold = 0), "disk_free_threshold 必须大于 0"),
    (match cfg.compactThreshold with
      | some threshold => decide (0 < threshold ∧ threshold ≤ 1)
      | none => false, "compact_threshold 必须在 (0, 1] 之间"),
    (!(cfg.listenPort < 10001), "listen_port 必须大于 10000（NAT 网关打洞限制）"),
    (!(cfg.tempTtlHours = 0), "temp_ttl_hours 必须大于 0"),
    (!(cfg.downloadMbps = some 0), "download_mbps 必须大于 0"),
    (cfg.originEndpoint.isSome = cfg.originAddr.isSome,
      "origin_endpoint 与 origin_addr 必须同时配置或同时缺省"),
    (!(cfg.nodeType = .cafe && (cfg.originEndpoint.isSome || cfg.originAddr.isSome)),
      "网吧节点不得配置 origin_endpoint/origin_addr（网吧只从 IDC 拉取）"),
    (parses net cfg.originAddr, "origin_addr 必须是 ip:port"),
    (match cfg.keepalivePort with
      | some port => !(port < 10001)
      | none => true, "keepalive_port 必须大于 10000（NAT 网关打洞限制）"),
    (parses net cfg.externalAddr, "external_addr 必须是 ip:port"),
    (parses net cfg.stunAddr, "stun_addr 必须是 ip:port"),
    (match cfg.controlAddr with
      | some addr => startsWith addr "http://" || startsWith addr "https://"
      | none => true, "control_addr 必须是 http(s):// 地址") ]

def validate : Except String Unit :=
  match (cfg.checks net).find? fun c => !c.1 with
  | some c => .error c.2
  | none => .ok ()

/-- The external address of `start`; `discovered` is what `stun::discover` answers. `none` where
`start` fails. -/
def externalSocket (discovered : Option Sock) : Option (Option Sock) :=
  match cfg.externalAddr with
  | some addr => (net.parse addr).map some
  | none => match cfg.stunAddr with
    | some _ => discovered.map some
    | none => some none

/-- The keepalive address that is registered besides. -/
def keepaliveAddr : Option AddrRecord :=
  match cfg.externalAddr, cfg.keepalivePort with
  | some addr, some port => (net.parse addr).map fun socket =>
    ⟨net.ipText socket ++ ":" ++ toString port.toNat, "keepalive", ""⟩
  | _, _ => none

/-- The addresses `start` registers, given the external address it has found. -/
def registeredAddrs (external : Option Sock) : List AddrRecord :=
  let kind := if cfg.externalAddr.isSome then "config" else "stun"
  (external.map fun socket => (⟨net.text socket, kind, ""⟩ : AddrRecord)).toList
    ++ (cfg.keepaliveAddr net).toList

end Config

end BlazeNet
