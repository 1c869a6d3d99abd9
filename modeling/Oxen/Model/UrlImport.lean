import Mathlib.Data.UInt

/-! The requests of an import from a URL, and the addresses that they may go to. -/

namespace Oxen

namespace UrlImport

structure Ipv4Addr where
  (o0 o1 o2 o3 : UInt8)
deriving DecidableEq, Repr

structure Ipv6Addr where
  (s0 s1 s2 s3 s4 s5 s6 s7 : UInt16)
deriving DecidableEq, Repr

inductive IpAddr where
  | v4 (addr : Ipv4Addr)
  | v6 (addr : Ipv6Addr)
deriving DecidableEq, Repr

namespace Ipv4Addr

def unspecified : Ipv4Addr := ⟨0, 0, 0, 0⟩

def broadcast : Ipv4Addr := ⟨255, 255, 255, 255⟩

variable (v4 : Ipv4Addr)

def isLoopback : Bool :=
  v4.o0 = 127

def isPrivate : Bool :=
  v4.o0 = 10 ∨ (v4.o0 = 172 ∧ 16 ≤ v4.o1 ∧ v4.o1 ≤ 31) ∨ (v4.o0 = 192 ∧ v4.o1 = 168)

def isLinkLocal : Bool :=
  v4.o0 = 169 ∧ v4.o1 = 254

/-- Shared addresses, protocol assignments and benchmarking. -/
def isCgnOrReservedV4 : Bool :=
  (v4.o0 = 100 ∧ v4.o1 &&& 0xC0 = 64) ∨ (v4.o0 = 192 ∧ v4.o1 = 0 ∧ v4.o2 = 0) ∨
    (v4.o0 = 198 ∧ v4.o1 &&& 0xFE = 18)

def isPrivateIp : Bool :=
  v4.isLoopback || v4.isPrivate || v4.isLinkLocal || v4 = unspecified || v4 = broadcast ||
    v4.isCgnOrReservedV4

end Ipv4Addr

namespace Ipv6Addr

def unspecified : Ipv6Addr := ⟨0, 0, 0, 0, 0, 0, 0, 0⟩

def loopback : Ipv6Addr := ⟨0, 0, 0, 0, 0, 0, 0, 1⟩

variable (v6 : Ipv6Addr)

/-- The last four octets as an address. -/
def lastV4 : Ipv4Addr :=
  ⟨(v6.s6 >>> 8).toUInt8, v6.s6.toUInt8, (v6.s7 >>> 8).toUInt8, v6.s7.toUInt8⟩

def toIpv4Mapped : Option Ipv4Addr :=
  if v6.s0 = 0 ∧ v6.s1 = 0 ∧ v6.s2 = 0 ∧ v6.s3 = 0 ∧ v6.s4 = 0 ∧ v6.s5 = 0xffff then
    some v6.lastV4
  else none

/-- An address that is mapped or compatible. -/
def toIpv4 : Option Ipv4Addr :=
  if v6.s0 = 0 ∧ v6.s1 = 0 ∧ v6.s2 = 0 ∧ v6.s3 = 0 ∧ v6.s4 = 0 ∧ (v6.s5 = 0 ∨ v6.s5 = 0xffff) then
    some v6.lastV4
  else none

def isPrivateIp : Bool :=
  if v6 = loopback ∨ v6 = unspecified then true
  else if v6.s0 &&& 0xfe00 = 0xfc00 then true
  else if v6.s0 &&& 0xffc0 = 0xfe80 then true
  else if v6.s0 = 0x2001 ∧ v6.s1 = 0x0db8 then true
  else if v6.s0 = 0x0064 ∧ v6.s1 = 0xff9b then v6.lastV4.isPrivateIp
  else
    match v6.toIpv4Mapped with
    | some v4 => v4.isPrivateIp
    | none =>
        match v6.toIpv4 with
        | some v4 => v4.isPrivateIp
        | none => false

end Ipv6Addr

def isPrivateIp : IpAddr → Bool
  | .v4 v4 => v4.isPrivateIp
  | .v6 v6 => v6.isPrivateIp

inductive Host where
  | ip (addr : IpAddr)
  | name (text : String)
deriving DecidableEq

structure Url where
  scheme : String
  host : Option Host
  /-- The port, the path and what else there is. -/
  rest : String := ""
deriving DecidableEq

structure Response where
  status : ℕ
  /-- The header, if it is there and a text. -/
  location : Option String := none
deriving DecidableEq

namespace Response

variable (response : Response)

def isRedirection : Bool :=
  300 ≤ response.status ∧ response.status < 400

def isSuccess : Bool :=
  200 ≤ response.status ∧ response.status < 300

end Response

inductive ImportError where
  | invalidUrl (url : String)
  | schemeNotAllowed
  | noHost
  | dnsResolutionFailed (host : Host)
  | privateIp (ip : IpAddr)
  | invalidAuth (auth : String)
  | requestFailed
  | tooManyRedirects
  | missingLocation
  | invalidRedirect (location : String)
  | redirectScheme
  | httpStatus (status : ℕ)
deriving DecidableEq

/-- The libraries that read URLs and header values. -/
structure Libraries where
  parse : String → Option Url
  join : Url → String → Option Url
  isHeaderValue : String → Bool

/-- What the network answers about one URL of an import. -/
structure Exchange where
  /-- The answer when the name is checked. -/
  checked : Option (List IpAddr)
  /-- The answer when the client asks for the name. -/
  asked : Option (List IpAddr)
  /-- Which address the client connects to. -/
  chosen : ℕ := 0
  /-- Nothing if the request fails once it is sent. -/
  response : Option Response
deriving DecidableEq

structure Request where
  hop : ℕ
  url : Url
  address : IpAddr
  authorization : Option String
deriving DecidableEq

/-- The addresses of a host. Only a name needs an answer. -/
def Host.resolve (answer : Option (List IpAddr)) : Host → Option (List IpAddr)
  | .ip addr => some [addr]
  | .name _ => answer

def Url.resolve (url : Url) (answer : Option (List IpAddr)) : Option (List IpAddr) :=
  url.host.bind fun host => host.resolve answer

def validateUrlTarget (url : Url) (exchange : Exchange) : Except ImportError Unit :=
  match url.host with
  | none => .error .noHost
  | some host =>
      match host.resolve exchange.checked with
      | none => .error (.dnsResolutionFailed host)
      | some addrs =>
          match addrs.find? isPrivateIp with
          | some ip => .error (.privateIp ip)
          | none => .ok ()

def isHttp (url : Url) : Bool :=
  url.scheme = "http" ∨ url.scheme = "https"

/-- The address that the client sends a request to, after a lookup of its own. -/
def connect (url : Url) (exchange : Exchange) : Option IpAddr :=
  (url.resolve exchange.asked).bind fun addrs => addrs[exchange.chosen]?

def maxRedirects : ℕ := 10

variable (libs : Libraries) (world : ℕ → Exchange) (auth : String)

/-- The next URL, once it is checked. -/
def redirectTarget (hop : ℕ) (url : Url) (response : Response) : Except ImportError Url :=
  match response.location with
  | none => .error .missingLocation
  | some location =>
      match libs.join url location with
      | none => .error (.invalidRedirect location)
      | some next =>
          if ¬ isHttp next then .error .redirectScheme
          else (validateUrlTarget next (world (hop + 1))).map fun _ => next

/-- Only the first request carries the caller's authorization. -/
def hopRequest (hop : ℕ) (url : Url) (address : IpAddr) : Request :=
  { hop, url, address, authorization := if hop = 0 then some auth else none }

/-- The requests from a hop on, when so many redirects are left. -/
def fetchHops (remaining hop : ℕ) (url : Url) : List Request × Except ImportError Response :=
  match connect url (world hop) with
  | none => ([], .error .requestFailed)
  | some address =>
      let request := hopRequest auth hop url address
      match (world hop).response with
      | none => ([request], .error .requestFailed)
      | some response =>
          if response.isRedirection then
            match remaining with
            | 0 => ([request], .error .tooManyRedirects)
            | remaining + 1 =>
                match redirectTarget libs world hop url response with
                | .error e => ([request], .error e)
                | .ok next =>
                    let (requests, result) := fetchHops remaining (hop + 1) next
                    (request :: requests, result)
          else if response.isSuccess then ([request], .ok response)
          else ([request], .error (.httpStatus response.status))

def importUrl (url : String) : List Request × Except ImportError Response :=
  match libs.parse url with
  | none => ([], .error (.invalidUrl url))
  | some parsed =>
      if ¬ isHttp parsed then ([], .error .schemeNotAllowed)
      else
        match validateUrlTarget parsed (world 0) with
        | .error e => ([], .error e)
        | .ok () =>
            if ¬ libs.isHeaderValue auth then ([], .error (.invalidAuth auth))
            else fetchHops libs world auth maxRedirects 0 parsed

end UrlImport

end Oxen
