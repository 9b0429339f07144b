import Cur8or.PathResolver

/-! HTTP messages as the server sees them, and the response templates. The file system and the
Beast version string come from outside and are collected in a host. -/
namespace HttpResponses

open CxxLibrary PosixPath

/-- The verbs the server tells apart; every other one, known or not, is `other`. -/
inductive Verb where
  | get | head | post
  | other (code : ℕ)
  deriving DecidableEq, Repr

structure Request where
  method : Verb
  target : StringView
  version : ℕ
  keepAlive : Bool
  body : StringView
  deriving DecidableEq

inductive Status where
  | ok | badRequest | notFound | internalServerError
  deriving DecidableEq, Repr

def Status.code : Status → ℕ
  | .ok => 200
  | .badRequest => 400
  | .notFound => 404
  | .internalServerError => 500

/-- `body` is what follows the header on the wire. -/
structure Response where
  status : Status
  version : ℕ
  server : Bytes
  contentType : Bytes
  contentLength : ℕ
  keepAlive : Bool
  body : Bytes
  deriving DecidableEq

inductive FileOpen where
  | opened (content : Bytes)
  | noSuchFile
  | failed (message : Bytes)
  deriving DecidableEq

structure Host where
  openFile : Bytes → FileOpen
  beastVersion : Bytes

/-- `c_str()` stops at the first zero byte. -/
def cString (p : Path) : Bytes := p.takeWhile (· ≠ 0)

def extensionMapping : List (Bytes × Bytes) :=
  [(text ".htm", text "text/html"), (text ".html", text "text/html"),
   (text ".php", text "text/html"), (text ".css", text "text/css"),
   (text ".txt", text "text/plain"), (text ".js", text "application/javascript"),
   (text ".json", text "application/json"), (text ".xml", text "application/xml"),
   (text ".swf", text "application/x-shockwave-flash"), (text ".flv", text "video/x-flv"),
   (text ".png", text "image/png"), (text ".jpe", text "image/jpeg"),
   (text ".jpeg", text "image/jpeg"), (text ".jpg", text "image/jpeg"),
   (text ".gif", text "image/gif"), (text ".bmp", text "image/bmp"),
   (text ".ico", text "image/vnd.microsoft.icon"), (text ".tiff", text "image/tiff"),
   (text ".tif", text "image/tiff"), (text ".svg", text "image/svg+xml"),
   (text ".svgz", text "image/svg+xml"), (text "", text "application/text")]

def fileMimeType (filePath : Path) : Bytes :=
  (extensionMapping.lookup (extension filePath)).getD (text "application/text")

example : fileMimeType (text "./root/query.html") = text "text/html" ∧
    fileMimeType (text "./root/.html") = text "application/text" := by decide

/-- `prepare_payload` sets the length of the string body. -/
def errorResponse (host : Host) (request : Request) (status : Status) (message : Bytes) :
    Response where
  status := status
  version := request.version
  server := host.beastVersion
  contentType := text "text/html"
  contentLength := message.length
  keepAlive := request.keepAlive
  body := message

/-- HEAD keeps the length of the file but not its bytes. -/
def fileResponse (host : Host) (request : Request) (path : Path) : Response :=
  match host.openFile (cString path) with
  | .noSuchFile => errorResponse host request .notFound request.target.bytes
  | .failed message => errorResponse host request .internalServerError message
  | .opened content =>
    { status := .ok
      version := request.version
      server := host.beastVersion
      contentType := fileMimeType path
      contentLength := content.length
      keepAlive := request.keepAlive
      body := if request.method = .head then [] else content }

def dataResponse (host : Host) (request : Request) (data : Bytes) : Response where
  status := .ok
  version := request.version
  server := host.beastVersion
  contentType := text "application/json"
  contentLength := data.length
  keepAlive := request.keepAlive
  body := data

def Response.Carries (response : Response) (request : Request) : Prop :=
  response.version = request.version ∧ response.keepAlive = request.keepAlive

theorem errorResponse_carries (host : Host) (request : Request) (status : Status)
    (message : Bytes) : (errorResponse host request status message).Carries request :=
  ⟨rfl, rfl⟩

theorem fileResponse_carries (host : Host) (request : Request) (path : Path) :
    (fileResponse host request path).Carries request := by
  simp only [fileResponse]
  cases host.openFile (cString path) with
  | opened content => exact ⟨rfl, rfl⟩
  | noSuchFile => exact errorResponse_carries ..
  | failed message => exact errorResponse_carries ..

theorem dataResponse_carries (host : Host) (request : Request) (data : Bytes) :
    (dataResponse host request data).Carries request := ⟨rfl, rfl⟩

def Response.SameHeader (a b : Response) : Prop :=
  a.status = b.status ∧ a.contentType = b.contentType ∧ a.contentLength = b.contentLength

/-- None of the templates lets the method into the header fields. -/
theorem fileResponse_sameHeader (host : Host) (request : Request) (method : Verb) (path : Path) :
    (fileResponse host { request with method := method } path).SameHeader
      (fileResponse host request path) := by
  simp only [fileResponse]
  cases host.openFile (cString path) with
  | opened content => exact ⟨rfl, rfl, rfl⟩
  | noSuchFile => exact ⟨rfl, rfl, rfl⟩
  | failed message => exact ⟨rfl, rfl, rfl⟩

theorem fileResponse_head_body (host : Host) (request : Request) (hm : request.method = .head)
    (path : Path) : (fileResponse host request path).body =
      match host.openFile (cString path) with
      | .noSuchFile => request.target.bytes
      | .failed message => message
      | .opened _ => [] := by
  simp only [fileResponse]
  cases host.openFile (cString path) with
  | opened content => simp [hm]
  | noSuchFile => rfl
  | failed message => rfl

end HttpResponses
