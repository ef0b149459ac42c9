import Mathlib.Data.List.SplitBy
import Hatn.Base.ConfigTree

/-!
# Loading configuration files

A file can include other files under an include tag, at the top of its tree or below.
`loadNext` reads a file, takes out its tags and merges the trees of the included files and
its own one.  What a file holds is what the handler of its format reads from it.
-/

namespace Hatn.Base

/-! ### Names of files -/

namespace FilePath

def isAbsolute (p : String) : Bool := p.toList.head? = some '/'

/-- One name of a path that is brought into normal form.  The names so far stand in reverse, with
whether a separator follows them. -/
def pushName (absolute : Bool) (s : List String × Bool) (name : String) : List String × Bool :=
  if name = "" ∨ name = "." then (s.1, true)
  else if name = ".." then
    match s.1 with
    | [] => if absolute then ([], true) else ([".."], false)
    | last :: names => if last = ".." then (".." :: last :: names, false) else (names, true)
  else (name :: s.1, false)

/-- `path::lexically_normal`. -/
def lexicallyNormal (p : String) : String :=
  if p = "" then ""
  else
    let s := ((p.toList.splitOn '/').map String.ofList).foldl (pushName (isAbsolute p)) ([], false)
    let text := (if isAbsolute p then "/" else "") ++ "/".intercalate s.1.reverse
    if text = "" then "."
    else if s.2 ∧ s.1 ≠ [] ∧ s.1.head? ≠ some ".." then text ++ "/"
    else text

/-- `path::parent_path`. -/
def parentPath (p : String) : String :=
  if p.toList.all (· == '/') then p
  else
    let dir := p.toList.reverse.dropWhile (· != '/')
    let names := dir.dropWhile (· == '/')
    String.ofList (if names = [] ∧ dir ≠ [] then ['/'] else names.reverse)

/-- `path::operator/=`. -/
def append (dir p : String) : String :=
  if isAbsolute p then p
  else if dir = "" ∨ dir.toList.getLast? = some '/' then dir ++ p
  else dir ++ "/" ++ p

/-- `path::extension`. -/
def extension (p : String) : String :=
  let name := p.toList.reverse.takeWhile (· != '/')
  let stem := name.dropWhile (· != '.')
  if name = ['.', '.'] ∨ stem.length ≤ 1 then ""
  else String.ofList ('.' :: (name.takeWhile (· != '.')).reverse)

end FilePath

/-- `ConfigTreeIo::fileFormat`. -/
def fileFormat (filename : String) : String :=
  String.ofList (((FilePath.extension filename).toList.dropWhile
    fun c => c == '*' || c == '.').map Char.toLower)

/-- The files that there are.  Finitely many names in normal form lead to one. -/
structure ConfigFiles where
  fileExists : String → Bool
  currentPath : String
  names : List String
  listed : ∀ p, fileExists p ∨ fileExists (FilePath.lexicallyNormal p) →
    FilePath.lexicallyNormal p ∈ names

/-! ### Includes -/

inductive BaseError
  | configParseError
  | valueNotSet
  | invalidType
  | unknownConfigMergeMode
  deriving DecidableEq

structure ConfigTreeInclude where
  file : String
  merge : ArrayMerge := .merge
  extend : Bool := false
  format : String := ""
  deriving DecidableEq

structure InvalidInclude where
  origin : BaseError
  path : ConfigTreePath
  filename : String
  deriving DecidableEq

inductive LoadError
  | unsupportedFormat (format file : String)
  | fileNotFound (file : String)
  | includeFileNotFound (file : String)
  | includeCycle (file : String)
  | configLoadError (message : String)
  | invalidInclude (e : InvalidInclude)
  | resultOutOfRange
  | outOfFuel
  deriving DecidableEq

def arrayMerge : String → Except BaseError ArrayMerge
  | "merge" => .ok .merge
  | "append" => .ok .append
  | "prepend" => .ok .prepend
  | "override" => .ok .override
  | "preserve" => .ok .preserve
  | _ => .error .unknownConfigMergeMode

namespace ConfigTree

def asString : ConfigTree → Except BaseError String
  | scalar (.string s) => .ok s
  | unset => .error .valueNotSet
  | _ => .error .invalidType

/-- An integer is taken, too. -/
def asBool : ConfigTree → Except BaseError Bool
  | scalar (.bool b) => .ok b
  | scalar (.int n) => .ok (n != 0)
  | unset => .error .valueNotSet
  | _ => .error .invalidType

end ConfigTree

/-- `ConfigTreeInclude::fromMap`. -/
def fromMap (keys : List String) (entry : String → ConfigTree) :
    Except BaseError ConfigTreeInclude :=
  if "file" ∉ keys then .error .configParseError
  else do
    let file ← (entry "file").asString
    let format ← if "format" ∈ keys then (entry "format").asString else .ok ""
    let extend ← if "extend" ∈ keys then (entry "extend").asBool else .ok false
    let mode ← if "merge" ∈ keys then (entry "merge").asString >>= arrayMerge else .ok .merge
    return { file, merge := mode, extend, format }

/-- The description of one include. -/
def parseInclude (filename : String) (path : ConfigTreePath) (value : ConfigTree) :
    Except InvalidInclude ConfigTreeInclude :=
  match value with
  | .map keys entry => (fromMap keys entry).mapError fun origin => ⟨origin, path, filename⟩
  | .unset => .error ⟨.valueNotSet, path, filename⟩
  | _ => .error ⟨.invalidType, path, filename⟩

def parseIncludes (filename : String) (value : ConfigTree) (path : ConfigTreePath) :
    Except InvalidInclude (List ConfigTreeInclude) :=
  match value with
  | .scalar (.string file) => .ok [{ file }]
  | .array .string values => .ok (values.filterMap fun v =>
      match v.val with
      | .string file => some { file }
      | _ => none)
  | .trees size item => (List.range size).mapM fun i =>
      parseInclude filename (path ++ [.item i]) (item i)
  | .map keys entry => do return [← parseInclude filename path (.map keys entry)]
  | _ => .error ⟨.invalidType, path, filename⟩

/-- `ConfigTreePath::operator<`. -/
def pathLt : ConfigTreePath → ConfigTreePath → Bool
  | [], p => decide (p ≠ [])
  | _ :: _, [] => false
  | s :: q, s' :: p =>
    if s.text < s'.text then true
    else if s'.text < s.text then false
    else pathLt q p

/-- The includes that a file has at its top and at places below. -/
structure FoundIncludes where
  top : List ConfigTreeInclude := []
  nested : List (ConfigTreePath × List ConfigTreeInclude) := []

namespace FoundIncludes

variable (found : FoundIncludes)

/-- The top includes that are merged under the file's own tree, in their order. -/
def plain : List ConfigTreeInclude :=
  found.top.filter fun it => decide (it.file ≠ "") && !it.extend

/-- The top includes that are merged into the file's own tree. -/
def extending : List ConfigTreeInclude :=
  found.top.filter fun it => decide (it.file ≠ "") && it.extend

/-- The nested includes with their places. -/
def places : List (ConfigTreePath × ConfigTreeInclude) :=
  found.nested.flatMap fun it => it.2.map fun it1 => (it.1, it1)

/-- How arrays of the file's own tree are merged: a top include without a file says it. -/
def currentMergeMode : ArrayMerge :=
  found.top.foldl (fun mode it => if it.file = "" then it.merge else mode) .merge

end FoundIncludes

/-- `std::map::operator[]` of the nested includes. -/
def setNested (q : ConfigTreePath) (includes : List ConfigTreeInclude) :
    List (ConfigTreePath × List ConfigTreeInclude) →
      List (ConfigTreePath × List ConfigTreeInclude)
  | [] => [(q, includes)]
  | (q', includes') :: rest =>
    if pathLt q q' then (q, includes) :: (q', includes') :: rest
    else if pathLt q' q then (q', includes') :: setNested q includes rest
    else (q', includes) :: rest

/-- The nodes under the tag, as `ConfigTree::each` comes to them.  A nested one has been reset
before its entries are looked at. -/
def taggedNodes (tag : String) : ConfigTreePath → ConfigTree → List (ConfigTreePath × ConfigTree)
  | path, .map keys entry => keys.flatMap fun k =>
      (if k = tag then [(path ++ [.key k], entry k)] else []) ++
        if k = tag ∧ path ≠ [] then [] else taggedNodes tag (path ++ [.key k]) (entry k)
  | path, .trees size item => (List.range size).flatMap fun i =>
      (if toString i = tag then [(path ++ [.item i], item i)] else []) ++
        if toString i = tag ∧ path ≠ [] then []
        else taggedNodes tag (path ++ [.item i]) (item i)
  | _, _ => []

/-- The handler of `loadNext` at a node under the tag. -/
def keysHandler (filename : String) (found : FoundIncludes) :
    ConfigTreePath × ConfigTree → Except InvalidInclude FoundIncludes
  | (path, value) =>
    (parseIncludes filename value path).map fun includes =>
      if path.length > 1 then
        { found with nested := setNested path.dropLast includes found.nested }
      else { found with top := found.top ++ includes }

/-- The tree once the nested tags are reset. -/
def resetTags (tag : String) (nested : Bool) : ConfigTree → ConfigTree
  | .map keys entry => .map keys fun k =>
      if k = tag ∧ nested then .unset else resetTags tag true (entry k)
  | .trees size item => .trees size fun i =>
      if toString i = tag ∧ nested then .unset else resetTags tag true (item i)
  | t => t

/-- `ConfigTree::remove` of a key at the top. -/
def removeTag (tag : String) : ConfigTree → ConfigTree
  | .map keys entry => .map (keys.filter (· ≠ tag)) entry
  | t => t

/-! ### The loader -/

/-- `loadFromFile` of a handler: a name of a file, and a format. -/
abbrev ConfigTreeIo := String → String → Except String ConfigTree

structure ConfigTreeLoader where
  handlers : List (String × ConfigTreeIo)
  defaultFormat : String := "jsonc"
  includeTag : String := "#include"
  includeDirs : List String := []

namespace ConfigTreeLoader

variable (loader : ConfigTreeLoader) (files : ConfigFiles)

def handler (format : String) : Option ConfigTreeIo :=
  if format = "" then loader.handlers.lookup loader.defaultFormat
  else loader.handlers.lookup format

/-- The directories where a file is looked for: those of the files that include it, the last one
first, and then the ones of the loader. -/
def lookupDirs (chain : List String) : List String :=
  if chain = [] then [files.currentPath]
  else (chain.reverse.map FilePath.parentPath ++ loader.includeDirs).eraseDups

def findFile (chain : List String) (file : String) : Option String :=
  let currentPath := FilePath.lexicallyNormal file
  if files.fileExists currentPath then some currentPath
  else if FilePath.isAbsolute currentPath then none
  else ((loader.lookupDirs files chain).map (FilePath.append · currentPath)).find? files.fileExists
    |>.map FilePath.lexicallyNormal

/-- The part of `loadNext` that finds and reads the file. -/
def openFile (descriptor : ConfigTreeInclude) (chain : List String) :
    Except LoadError (String × ConfigTree) :=
  let format := fileFormat descriptor.format
  match loader.handler format with
  | none => .error (.unsupportedFormat format descriptor.file)
  | some handler =>
    match loader.findFile files chain descriptor.file with
    | none => .error (if chain = [] then .fileNotFound descriptor.file
        else .includeFileNotFound descriptor.file)
    | some filename =>
      if filename ∈ chain then .error (.includeCycle filename)
      else match handler filename format with
        | .error message => .error (.configLoadError message)
        | .ok current => .ok (filename, current)

/-- The part that finds the includes in the tree of the file. -/
def findIncludes (filename : String) (current : ConfigTree) :
    Except InvalidInclude FoundIncludes :=
  (taggedNodes loader.includeTag [] current).foldlM (keysHandler filename) {}

/-- The tree of the file without its tags. -/
def withoutTags (found : FoundIncludes) (current : ConfigTree) : ConfigTree :=
  let t := resetTags loader.includeTag false current
  if found.top = [] then t else removeTag loader.includeTag t

end ConfigTreeLoader

structure TopState where
  merged : ConfigTree := .unset
  current : ConfigTree
  currentMergeMode : ArrayMerge := .merge

section

variable (load : ConfigTreeInclude → Except LoadError ConfigTree)

/-- One round of the loop over the top includes. -/
def mergeTop (s : TopState) (it : ConfigTreeInclude) : Except LoadError TopState :=
  if it.file = "" then .ok { s with currentMergeMode := it.merge }
  else (load it).map fun next =>
    if it.extend then { s with current := s.current.merge it.merge next }
    else { s with merged := s.merged.merge it.merge next }

/-- One round of the loop over the nested includes. -/
def mergeNested (current : ConfigTree) (it : ConfigTreePath × ConfigTreeInclude) :
    Except LoadError ConfigTree :=
  (load it.2).bind fun next =>
    current.modifyAt .resultOutOfRange (ConfigTree.merge it.2.merge · next) it.1

def TopState.joined (s : TopState) : ConfigTree :=
  if s.merged.isSet then s.merged.merge s.currentMergeMode s.current else s.current

/-- The part of `loadNext` that merges the includes. -/
def mergeIncludes (current : ConfigTree) (found : FoundIncludes) : Except LoadError ConfigTree :=
  (found.top.foldlM (mergeTop load) { current }).bind fun s =>
    found.places.foldlM (mergeNested load) s.joined

end

namespace ConfigTreeLoader

/-- The fuel bounds the depth of the includes. -/
def loadNext (loader : ConfigTreeLoader) (files : ConfigFiles) :
    Nat → ConfigTreeInclude → List String → Except LoadError ConfigTree
  | 0, _, _ => .error .outOfFuel
  | fuel + 1, descriptor, chain =>
    (loader.openFile files descriptor chain).bind fun (filename, current) =>
      ((loader.findIncludes filename current).mapError .invalidInclude).bind fun found =>
        mergeIncludes (fun it => loadNext loader files fuel it (chain ++ [filename]))
          (loader.withoutTags found current) found

end ConfigTreeLoader

end Hatn.Base
