import GraphiteMeter.Lib.Text

/-!
# Routes

Reference: `rust/proto/src/route.rs`. The fixed routes the server mounts and the clients request.
-/

namespace GraphiteMeter.Proto

inductive Kind where
  | http
  | webSocket
  | webTransport
deriving DecidableEq, Repr

inductive Route where
  | preflight
  | probe
  | download
  | upload
  | uploadProgress
  | lease
  | ping
  | wsProgress
  | wtDownload
  | wtUpload
  | wtPing
  | servers
  | uploadCheckpoint
deriving DecidableEq, Repr

namespace Route

def all : List Route :=
  [.preflight, .probe, .download, .upload, .uploadProgress, .lease, .ping, .wsProgress, .wtDownload,
    .wtUpload, .wtPing, .servers, .uploadCheckpoint]

/-- The exact path the route is mounted at. -/
def path : Route → Text
  | .preflight => "/preflight".toList
  | .probe => "/probe".toList
  | .download => "/download".toList
  | .upload => "/upload".toList
  | .uploadProgress => "/upload/progress".toList
  | .lease => "/lease".toList
  | .ping => "/ws/ping".toList
  | .wsProgress => "/ws/progress".toList
  | .wtDownload => "/wt/download".toList
  | .wtUpload => "/wt/upload".toList
  | .wtPing => "/wt/ping".toList
  | .servers => "/servers".toList
  | .uploadCheckpoint => "/upload/checkpoint".toList

def kind : Route → Kind
  | .ping | .wsProgress => .webSocket
  | .wtDownload | .wtUpload | .wtPing => .webTransport
  | _ => .http

/-- The methods the route dispatches. -/
def methods : Route → List Text
  | .upload | .uploadCheckpoint => ["POST".toList]
  | .uploadProgress => ["GET".toList, "DELETE".toList]
  | .lease => ["POST".toList, "DELETE".toList]
  | .wtDownload | .wtUpload | .wtPing => ["CONNECT".toList]
  | _ => ["GET".toList]

def findByPath (path : Text) : Option Route := all.find? fun route => route.path = path

end Route

/-- A sign-in route, answered only at the public HTTPS origin. -/
inductive AuthRoute where
  | login
  | password
  | oidcStart
  | oidcCallback
  | session
  | cli
  | browser
  | cliApprove
  | browserApprove
  | cliToken
  | browserToken
  | logout
deriving DecidableEq, Repr

namespace AuthRoute

def all : List AuthRoute :=
  [.login, .password, .oidcStart, .oidcCallback, .session, .cli, .browser, .cliApprove,
    .browserApprove, .cliToken, .browserToken, .logout]

def path : AuthRoute → Text
  | .login => "/login".toList
  | .password => "/auth/password".toList
  | .oidcStart => "/auth/oidc/start".toList
  | .oidcCallback => "/auth/oidc/callback".toList
  | .session => "/auth/session".toList
  | .cli => "/auth/cli".toList
  | .browser => "/auth/browser".toList
  | .cliApprove => "/auth/cli/approve".toList
  | .browserApprove => "/auth/browser/approve".toList
  | .cliToken => "/auth/cli/token".toList
  | .browserToken => "/auth/browser/token".toList
  | .logout => "/auth/logout".toList

/-- The method the route serves. -/
def method : AuthRoute → Text
  | .login | .oidcCallback | .session | .cli | .browser => "GET".toList
  | _ => "POST".toList

def findByPath (path : Text) : Option AuthRoute := all.find? fun route => route.path = path

end AuthRoute

end GraphiteMeter.Proto
