import WorkflowScope.Config
import WorkflowScope.File.Tree

/-!
# The settings file

Settings are kept in the home directory of the user. Without a settings file, or with one that
cannot be read, the defaults hold.
-/

namespace WorkflowScope.Config

def homePath (home : String) : String :=
  [".config", "workflowlens", "config.toml"].foldl Path.join home

def ofFile (path : String) (content : Content) : Except ConfigError Config := do
  let text ← content.text.mapError (.io path)
  parse text

def ofFileOrDefault (path : String) (content : Content) : Config :=
  match ofFile path content with
  | .ok config => config
  | .error _ => {}

def load (tree : FileTree) (path : String) : Except ConfigError Config :=
  ofFile path (tree.read path)

def loadHome (tree : FileTree) (home : String) : Config :=
  ofFileOrDefault (homePath home) (tree.read (homePath home))

def save (config : Config) (tree : FileTree) (path : String) : Except ConfigError FileTree :=
  (tree.writeBelow path (Utf8.encode config.render)).mapError (.io path)

end WorkflowScope.Config
