import ContentModeration.Framework.Prog
import ContentModeration.Impl.IpAddress

/-!
# Fetching a remote image

`app.url_fetch`: an image that is ingested by its URL is downloaded by
`fetchImageBytes`, after its URL and the addresses of its host were checked. The
module follows `urllib.parse` and `http_error_302` of the Python 3.12 that the
services run. The resolver, the network and the server are requests of the program;
what `urllib.request` reads out of a URL as the host to connect to is a parameter.
-/

namespace CM

def isBlockedIp : Address → Bool
  | .v4 ip =>
    IPv4.isPrivate ip || IPv4.isLoopback ip || IPv4.isLinkLocal ip || IPv4.isMulticast ip || IPv4.isReserved ip ||
      IPv4.isUnspecified ip
  | .v6 ip =>
    IPv6.isPrivate ip || IPv6.isLoopback ip || IPv6.isLinkLocal ip || IPv6.isMulticast ip || IPv6.isReserved ip ||
      IPv6.isUnspecified ip

/-! ## Exceptions -/

/-- What a fetch can raise. The subclasses of `OSError` are told apart as its handlers do. -/
inductive FetchExn where
  | unsafeImageUrl (detail : String)
  | imageFetchError (detail : String)
  | gaierror (text : String)
  | httpError (code : Nat)
  | urlError (reason : String)
  | timeout
  | oserror (text : String)
  | other (text : String)
  deriving DecidableEq

/-- `except OSError as exc`, and the `str(exc)` of it. -/
def FetchExn.oserrorText : FetchExn → Option String
  | .gaierror t => some t
  | .httpError code => some s!"HTTP Error {code}"
  | .urlError r => some s!"<urlopen error {r}>"
  | .timeout => some "timed out"
  | .oserror t => some t
  | _ => none

/-! ## `urllib.parse` -/

/-- What is outside the source: the tables of Unicode, and the host and the port that
`urllib.request.Request` and `http.client` read out of a URL that has passed. -/
structure Urllib where
  lower : String → String
  nfkc : List Char → List Char
  requestHost : String → Except FetchExn (String × Option Nat)

structure ParseResult where
  scheme : String
  netloc : List Char
  path : List Char
  params : List Char
  query : List Char
  fragment : List Char
  deriving DecidableEq

def usesNetloc : List String :=
  ["", "ftp", "http", "gopher", "nntp", "telnet", "imap", "wais", "file", "mms", "https", "shttp", "snews",
    "prospero", "rtsp", "rtsps", "rtspu", "rsync", "svn", "svn+ssh", "sftp", "nfs", "git", "git+ssh", "ws", "wss",
    "itms-services"]

def usesParams : List String :=
  ["", "ftp", "hdl", "prospero", "http", "imap", "https", "shttp", "rtsp", "rtsps", "rtspu", "sip", "sips", "mms",
    "sftp", "tel"]

/-- `s.partition(c)`: what is before the first `c`, and after it. -/
def before (c : Char) (cs : List Char) : List Char := cs.takeWhile (· ≠ c)

def after (c : Char) (cs : List Char) : List Char := (cs.dropWhile (· ≠ c)).drop 1

def isSchemeChar (c : Char) : Bool := c.isAlphanum || c = '+' || c = '-' || c = '.'

/-- A scheme before the first colon, and what follows it. -/
def splitScheme (cs : List Char) : String × List Char :=
  let s := before ':' cs
  if ':' ∈ cs ∧ (s.head?.any Char.isAlpha) ∧ s.all isSchemeChar then (lower (String.ofList s), after ':' cs)
  else ("", cs)

def inNetloc (c : Char) : Bool := c ≠ '/' && c ≠ '?' && c ≠ '#'

/-- A netloc after two slashes, and what follows it. -/
def splitNetloc : List Char → List Char × List Char
  | '/' :: '/' :: cs => (cs.takeWhile inNetloc, cs.dropWhile inNetloc)
  | cs => ([], cs)

/-- The parameters follow the first `;` of the last segment. -/
def splitParams (cs : List Char) : List Char × List Char :=
  let segment := (before '/' cs.reverse).reverse
  (cs.take (cs.length - segment.length) ++ before ';' segment, after ';' segment)

/-- `IPvFuture`: `v`, hexadecimal digits, a dot and something. -/
def isIpvFuture (cs : List Char) : Bool :=
  let v := before '.' (cs.drop 1)
  v ≠ [] && v.all (fun c => (hexValue c).isSome) && after '.' cs ≠ [] && '\n' ∉ after '.' cs

def checkBracketedHost (cs : List Char) : Except FetchExn Unit :=
  if cs.head? = some 'v' then if isIpvFuture cs then .ok () else .error (.other "IPvFuture address is invalid")
  else match ipAddress (String.ofList cs) with
    | some (.v6 _) => .ok ()
    | some (.v4 _) => .error (.other "An IPv4 address cannot be in brackets")
    | none =>
      .error (.other s!"'{String.ofList cs}' does not appear to be an IPv4 or IPv6 address")

def checkBracketedNetloc (netloc : List Char) : Except FetchExn Unit :=
  let hostnameAndPort := (before '@' netloc.reverse).reverse
  if '[' ∈ hostnameAndPort then
    let bracketed := after '[' hostnameAndPort
    let port := after ']' bracketed
    if before '[' hostnameAndPort ≠ [] then .error (.other "Invalid IPv6 URL")
    else if port ≠ [] ∧ port.head? ≠ some ':' then .error (.other "Invalid IPv6 URL")
    else checkBracketedHost (before ']' bracketed)
  else checkBracketedHost (before ':' hostnameAndPort)

def checkBrackets (netloc : List Char) : Except FetchExn Unit :=
  if '[' ∈ netloc ∧ ']' ∈ netloc then checkBracketedNetloc netloc
  else if '[' ∈ netloc ∨ ']' ∈ netloc then .error (.other "Invalid IPv6 URL")
  else .ok ()

/-- Characters that NFKC makes a delimiter are refused. -/
def checkNetloc (L : Urllib) (netloc : List Char) : Except FetchExn Unit :=
  let n := netloc.filter fun c => c ≠ '@' && c ≠ ':' && c ≠ '#' && c ≠ '?'
  if netloc.all (·.toNat < 128) || L.nfkc n = n || !(L.nfkc n).any (· ∈ ['/', '?', '#', '@', ':']) then .ok ()
  else
    .error (.other
      s!"netloc '{String.ofList netloc}' contains invalid characters under NFKC normalization")

def urlparse (L : Urllib) (url : String) : Except FetchExn ParseResult := do
  let cs := url.toList.dropWhile (·.toNat ≤ 32)
  let (scheme, rest) := splitScheme (cs.filter fun c => c ≠ '\t' && c ≠ '\r' && c ≠ '\n')
  let (netloc, rest) := splitNetloc rest
  checkBrackets netloc
  checkNetloc L netloc
  let url := before '#' rest
  let (path, params) := if scheme ∈ usesParams then splitParams (before '?' url) else (before '?' url, [])
  return ⟨scheme, netloc, path, params, after '?' url, after '#' rest⟩

/-- The parts of a URL, put together again. -/
def urlunparse (p : ParseResult) : String :=
  let url := if p.params = [] then p.path else p.path ++ ';' :: p.params
  let rooted := if url = [] ∨ url.head? = some '/' then url else '/' :: url
  let url :=
    if p.netloc ≠ [] then '/' :: '/' :: p.netloc ++ rooted
    else if ['/', '/'].isPrefixOf url then '/' :: '/' :: url
    else if p.scheme ≠ "" ∧ p.scheme ∈ usesNetloc ∧ (url = [] ∨ url.head? = some '/') then '/' :: '/' :: url
    else url
  (if p.scheme = "" then "" else p.scheme ++ ":") ++ String.ofList (url ++
    (if p.query = [] then [] else '?' :: p.query) ++ (if p.fragment = [] then [] else '#' :: p.fragment))

/-- A byte in latin-1: what is printable in ASCII stays, and the rest is escaped. -/
def quoteChar (c : Char) : Except FetchExn (List Char) :=
  if 0xff < c.toNat then .error (.other s!"'latin-1' codec can't encode character '{c}'")
  else if 0x21 ≤ c.toNat ∧ c.toNat ≤ 0x7e then .ok [c]
  else .ok ('%' :: (hexDigits 2 c.toNat).map Char.toUpper)

/-- `quote(s, encoding="iso-8859-1", safe=string.punctuation)`. -/
def quote (s : String) : Except FetchExn String := do
  return String.ofList (← s.toList.mapM quoteChar).flatten

namespace ParseResult

/-- `netloc.rpartition("@")[0]`, if there is an `@`. -/
def userinfo (p : ParseResult) : Option (List Char) :=
  if '@' ∈ p.netloc then some (after '@' p.netloc.reverse).reverse else none

def username (p : ParseResult) : Option (List Char) := p.userinfo.map (before ':')

def password (p : ParseResult) : Option (List Char) :=
  p.userinfo.bind fun u => if ':' ∈ u then some (after ':' u) else none

/-- `netloc.rpartition("@")[2]`. -/
def hostport (p : ParseResult) : List Char := (before '@' p.netloc.reverse).reverse

def hostinfo (p : ParseResult) : List Char × List Char :=
  if '[' ∈ p.hostport then
    let bracketed := after '[' p.hostport
    (before ']' bracketed, after ':' (after ']' bracketed))
  else (before ':' p.hostport, after ':' p.hostport)

/-- The host in lower case, but for the zone after a `%`. -/
def hostname (L : Urllib) (p : ParseResult) : Option String :=
  let host := p.hostinfo.1
  if host = [] then none
  else some (L.lower (String.ofList (before '%' host)) ++ String.ofList (host.dropWhile (· ≠ '%')))

def port (p : ParseResult) : Except FetchExn (Option Nat) :=
  let port := p.hostinfo.2
  if port = [] then .ok none
  else match decimal port with
    | some n => if n ≤ 65535 then .ok (some n) else .error (.other "Port out of range 0-65535")
    | none =>
      .error (.other s!"Port could not be cast to integer value as '{String.ofList port}'")

end ParseResult

/-! ## `validate_image_url` -/

def blockedHosts : List String :=
  ["localhost", "localhost.localdomain", "metadata.google.internal", "metadata.goog"]

/-- `host.rstrip(".")`. -/
def rstripDots (s : String) : String := String.ofList (s.toList.reverse.dropWhile (· = '.')).reverse

def validateImageUrl (L : Urllib) (url : String) : Except FetchExn String := do
  let raw := strip url
  let parsed ← urlparse L raw
  if parsed.scheme ≠ "http" ∧ parsed.scheme ≠ "https" then
    throw (.unsafeImageUrl "only http and https image URLs are allowed")
  if (parsed.username.getD []) ≠ [] ∨ (parsed.password.getD []) ≠ [] then
    throw (.unsafeImageUrl "URLs with credentials are not allowed")
  match parsed.hostname L with
  | none => throw (.unsafeImageUrl "image URL is missing a host")
  | some hostname =>
    let host := rstripDots (L.lower hostname)
    if host ∈ blockedHosts ∨ host.endsWith ".localhost" then
      throw (.unsafeImageUrl "image URL host is not allowed")
    if (ipAddress host).any isBlockedIp then
      throw (.unsafeImageUrl "image URL must not target a private address")
    return raw

/-! ## The network -/

/-- The status of a response, and the headers that matter. -/
structure RespHead where
  status : Nat
  location : Option String
  uri : Option String
  contentType : Option String
  deriving DecidableEq

/-- `getaddrinfo(host, port)`, the connection of a socket, the request up to the head of
its response, and `resp.read(n)`. -/
inductive NetReq where
  | getaddrinfo (host : String) (port : Nat)
  | connect (addr : Address) (port : Nat)
  | getresponse
  | read (n : Nat)
  deriving DecidableEq

@[reducible] def NetReq.Ans : NetReq → Type
  | .getaddrinfo .. => List Address
  | .connect .. => Unit
  | .getresponse => RespHead
  | .read _ => List UInt8

abbrev netIface : Iface := ⟨NetReq, NetReq.Ans⟩

abbrev Fetch := Prog netIface FetchExn

def getaddrinfo (host : String) (port : Nat) : Fetch (List Address) :=
  Prog.perform (I := netIface) (.getaddrinfo host port)

def connect (addr : Address) (port : Nat) : Fetch Unit := Prog.perform (I := netIface) (.connect addr port)

def getresponse : Fetch RespHead := Prog.perform (I := netIface) .getresponse

def read (n : Nat) : Fetch (List UInt8) := Prog.perform (I := netIface) (.read n)

/-! ## `opener.open` -/

/-- `socket.create_connection`: the addresses are tried in turn, and the exception of
the last is raised. -/
def createConnection (port : Nat) (last : FetchExn) : List Address → Fetch Unit
  | [] => throw last
  | a :: as =>
    tryCatch (connect a port) fun e =>
      if e.oserrorText.isSome then createConnection port e as else throw e

/-- `do_open`: an `OSError` while connecting becomes a `URLError`. -/
def connectError (e : FetchExn) : FetchExn :=
  match e.oserrorText with
  | some t => .urlError t
  | none => e

/-- The addresses of the host, and a connection to one of them. -/
def connectHost (host : String) (port : Nat) : Fetch Unit := do
  let infos ← getaddrinfo host port
  createConnection port (.oserror "getaddrinfo returns an empty list") infos

/-- `_NoRedirect.redirect_request`. -/
def redirectRequest : Except FetchExn Unit := .error (.unsafeImageUrl "image URL redirects are not followed")

/-- `http_error_302`, for a redirection to `newurl`. -/
def httpError302 (L : Urllib) (code : Nat) (newurl : String) : Except FetchExn Unit := do
  let urlparts ← urlparse L newurl
  if urlparts.scheme ∉ ["http", "https", "ftp", ""] then throw (.httpError code)
  let path := if urlparts.path = [] ∧ urlparts.netloc ≠ [] then ['/'] else urlparts.path
  let newurl ← quote (urlunparse { urlparts with path })
  -- `urljoin` parses it once more. The URL that it is joined to has been parsed before.
  let _ ← urlparse L newurl
  redirectRequest

/-- `HTTPErrorProcessor`: a response is one of 2xx, a redirection or an error. -/
def httpResponse (L : Urllib) (resp : RespHead) : Except FetchExn Unit :=
  if 200 ≤ resp.status ∧ resp.status < 300 then .ok ()
  else
    match if resp.status ∈ [301, 302, 303, 307, 308] then resp.location.or resp.uri else none with
    | some newurl => httpError302 L resp.status newurl
    | none => .error (.httpError resp.status)

/-- `opener.open(request)`: the host of the request is looked up for the connection. -/
def openUrl (L : Urllib) (url : String) (defaultPort : Nat) : Fetch RespHead := do
  let (host, port) ← Prog.ofExcept (L.requestHost url)
  if host = "" then throw (.urlError "no host given")
  tryCatch (connectHost host (port.getD defaultPort)) fun e => throw (connectError e)
  let resp ← getresponse
  Prog.ofExcept (httpResponse L resp)
  return resp

/-! ## `fetch_image_bytes` -/

def allowedImageTypes : List String := ["image/jpeg", "image/png", "image/webp", "image/gif"]

def bytes (s : String) : List UInt8 := s.toList.map fun c => UInt8.ofNat c.toNat

def sniffContentType (L : Urllib) (data : List UInt8) (header : Option String) : Except FetchExn String :=
  let declared := header.map fun h => L.lower (strip (String.ofList (before ';' h.toList)))
  if [0x89, 0x50, 0x4e, 0x47, 0x0d, 0x0a, 0x1a, 0x0a].isPrefixOf data then .ok "image/png"
  else if [0xff, 0xd8].isPrefixOf data then .ok "image/jpeg"
  else if data.take 6 ∈ [bytes "GIF87a", bytes "GIF89a"] then .ok "image/gif"
  else if 12 ≤ data.length ∧ data.take 4 = bytes "RIFF" ∧ (data.drop 8).take 4 = bytes "WEBP" then
    .ok "image/webp"
  else match declared.filter (· ∈ allowedImageTypes) with
    | some t => .ok t
    | none => .error (.imageFetchError "remote bytes are not a supported image type")

theorem room_decreases {room : Nat} {chunk : List UInt8} (h : chunk ≠ []) (hr : ¬ room < chunk.length) :
    room - chunk.length < room := by
  have := List.length_pos_iff.mpr h
  omega

/-- The chunks of the body, of which `room` bytes are left to `max_bytes`. -/
def readChunks (room : Nat) : Fetch (List UInt8) := do
  let chunk ← read (64 * 1024)
  if _ : chunk = [] then return []
  else if _ : room < chunk.length then throw (.imageFetchError "remote image exceeds max upload size")
  else return chunk ++ (← readChunks (room - chunk.length))
  termination_by room
  decreasing_by exact room_decreases (by assumption) (by assumption)

/-- The loop as the source writes it: `data` are the chunks so far, and `max_bytes` is any integer. -/
def readLoop (maxBytes : Int) (data : List UInt8) : Fetch (List UInt8) := do
  let chunk ← read (64 * 1024)
  if _ : chunk = [] then return data
  else if _ : maxBytes < (data ++ chunk).length then
    throw (.imageFetchError "remote image exceeds max upload size")
  else readLoop maxBytes (data ++ chunk)
  termination_by (maxBytes - data.length).toNat
  decreasing_by
    have := List.length_pos_iff.mpr ‹chunk ≠ []›
    rw [List.length_append] at *
    omega

/-- The handlers around the download. -/
def downloadError : FetchExn → FetchExn
  | .unsafeImageUrl d => .unsafeImageUrl d
  | .imageFetchError d => .imageFetchError d
  | .httpError code => .imageFetchError s!"image URL returned HTTP {code}"
  | .urlError reason => .imageFetchError s!"image URL fetch failed: {reason}"
  | .timeout => .imageFetchError "image URL fetch timed out"
  | .gaierror t => .imageFetchError s!"image URL fetch failed: {t}"
  | .oserror t => .imageFetchError s!"image URL fetch failed: {t}"
  | .other t => .other t

def download (L : Urllib) (url : String) (defaultPort maxBytes : Nat) : Fetch (List UInt8 × Option String) := do
  let resp ← openUrl L url defaultPort
  let data ← readChunks maxBytes
  return (data, resp.contentType)

def resolveError : FetchExn → FetchExn
  | .gaierror t => .imageFetchError s!"could not resolve image host: {t}"
  | e => e

/-- The checks on the URL alone: the URL without the space around it, its host, the
port of its scheme and the port. -/
def checkUrl (L : Urllib) (url : String) : Except FetchExn (String × String × Nat × Nat) := do
  let cleaned ← validateImageUrl L url
  let parsed ← urlparse L cleaned
  let host := (parsed.hostname L).getD ""
  let defaultPort := if parsed.scheme = "https" then 443 else 80
  let port ← parsed.port
  return (cleaned, host, defaultPort, if port.getD 0 = 0 then defaultPort else port.getD 0)

/-- The check of the addresses that `_host_ips` gives. -/
def checkAddresses (addresses : List Address) : Except FetchExn Unit :=
  if addresses = [] then .error (.imageFetchError "could not resolve image host")
  else if addresses.any isBlockedIp then
    .error (.unsafeImageUrl "image URL resolved to a private or reserved address")
  else .ok ()

def fetchImageBytes (L : Urllib) (url : String) (maxBytes : Nat) : Fetch (List UInt8 × String) := do
  let (cleaned, host, defaultPort, port) ← Prog.ofExcept (checkUrl L url)
  let addresses ← tryCatch (getaddrinfo host port) fun e => throw (resolveError e)
  Prog.ofExcept (checkAddresses addresses)
  let (data, headerType) ← tryCatch (download L cleaned defaultPort maxBytes) fun e => throw (downloadError e)
  if data = [] then throw (.imageFetchError "remote image was empty")
  let contentType ← Prog.ofExcept (sniffContentType L data headerType)
  return (data, contentType)

end CM
