import Reckoner.Journal.Basic
import Reckoner.Service.Basic
import Reckoner.Settings.Basic

/-!
The surroundings of a command: files, journals at places in the file tree, a source of identifiers,
and the service that remote evaluations go to.
-/

namespace Reckoner

structure Workspace where
  home : String
  current : String
  files : Files
  journals : List (List String × Journal)
  ids : Identifiers
  service : Option Service
  world : World

namespace Workspace

def now (ws : Workspace) : Int := ws.world.nanoseconds

structure OpenJournal where
  place : Option (List String)
  journal : Journal

def obstacle? : Option Node → Option String
  | some .directory => some "setting busy timeout: unable to open database file: out of memory (14)"
  | some (.file text) =>
    if text.isEmpty then none else some "migrating schema: file is not a database (26)"
  | none => none

def journalAt (ws : Workspace) (place : List String) : Journal :=
  (ws.journals.lookup place).getD (.new ("/" ++ Path.ofNames place))

def openJournal (path : String) (ws : Workspace) : Except String (OpenJournal × Workspace) :=
  if path.isEmpty || path == Journal.memoryPath then
    .ok ({ place := none, journal := .new path }, ws)
  else
    match ws.files.makeDirectory ws.current (Path.parent path) with
    | .error fault => .error ("creating history directory: " ++ fault.message)
    | .ok files =>
      let place := Path.cleanNames (Path.absolute ws.current path)
      match obstacle? (files.node? place) with
      | some message => .error message
      | none =>
        .ok ({ place := some place, journal := ws.journalAt place },
          { ws with files := files.insert place (.file "") })

def keep (ws : Workspace) (j : OpenJournal) : Workspace :=
  match j.place with
  | none => ws
  | some place =>
    { ws with
      journals := (place, j.journal) :: ws.journals.filter fun (other, _) => other != place }

def openHistory (settings : Settings) (ws : Workspace) : Option OpenJournal × Workspace :=
  if !settings.historyEnabled || settings.historyPath.isEmpty then (none, ws)
  else
    match ws.openJournal settings.historyPath with
    | .ok (j, ws) => (some j, ws)
    | .error _ => (none, ws)

end Workspace

end Reckoner
