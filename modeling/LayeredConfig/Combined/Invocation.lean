import LayeredConfig.Location.Basic
import LayeredConfig.Value.KeyPath

namespace LayeredConfig

def workspaceEntity : String := "#workspace"
def javascriptEntity : String := "#javascript-api"
def shellEntity : String := "#shell-env"

def rootDirPath : List String := [workspaceEntity, "rootDir"]
def configPathPath : List String := [workspaceEntity, "configPath"]
def workspaceDirPath : List String := [javascriptEntity, "workspaceDir"]
def shellDirPath : List String := [shellEntity, "env", "WORKSPACE_DIR"]

/-- Puts in the fields that tell where the workspace and its root document are;
what documents say about them does not count. -/
def withInvocation (merged : Fields) (workspace root : Location) : Fields :=
  let rootDir : Value := .string workspace.slashed
  let configPath : Value := .string (root.relativeTo workspace).slashed
  let merged := setAt merged rootDirPath rootDir
  let merged := setAt merged configPathPath configPath
  let merged := setAt merged workspaceDirPath rootDir
  setAt merged shellDirPath rootDir

end LayeredConfig
