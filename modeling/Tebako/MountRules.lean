import Tebako.MountState
import Tebako.PathPrefix
import Tebako.JoinedPath

namespace Tebako

open Data Data.Loop Data.LexicalPath Data.OrderedMap

/-! Mount rules of the command line.

A rule names a directory entry by its path within the root image and what to
mount there: `P:T` a path of the host, `P>F` the image in a file. -/

structure MountRule where
  mountpoint : CString
  toHost : Bool
  target : CString

namespace MountRule

def path (rule : MountRule) : CString := cStr (parentPath rule.mountpoint.chars)

def filename (rule : MountRule) : CString := cStr (lastSegment rule.mountpoint.chars)

end MountRule

/-- The rule is split at the first separator of either kind. -/
def splitRule (item : CString) : Option MountRule :=
  (item.chars.findIdx? fun char => char = ':' ∨ char = '>').map fun position => {
    mountpoint := cStr (item.chars.take position)
    toHost := item.chars[position]? = some ':'
    target := item.drop (position + 1) }

/-- What the rules need from outside: the host's files, and the images in them. -/
structure MountEnv where
  loader : Loader
  hostStat : CString → Except Errno FileStat
  /-- `none` for a file that cannot be opened, or not be read. -/
  readFile : CString → Option (Option (List UInt8))

def Globals.world (g : Globals) (hostStat : CString → Except Errno FileStat) : World :=
  ⟨g.memfsTable, g.mountTable, g.cwd, hostStat⟩

def Lookup.stat : Lookup → FileStat
  | .inode st => st
  | .linkRelative _ st => st
  | .linkAbsolute _ st => st
  | .linkOutside _ st => st

def CString.text (path : CString) : String := String.ofList path.chars

/-- The message of an exception, or nothing, and the state. -/
abbrev RuleResult := Except String Unit × Globals

variable (env : MountEnv)

/-- `st` are the attributes found for the directory of the mount point. -/
def mountRule (rule : MountRule) (st : FileStat) (g : Globals) : RuleResult :=
  let inode := st.ino.toUInt32
  if rule.toHost then
    (.ok (), { g with
      mountTable := (g.mountTable.insert (inode, rule.filename.chars) (.path rule.target)).2 })
  else
    match env.readFile rule.target with
    | none => (.error ("Path " ++ rule.target.text ++ " does not exist"), g)
    | some none => (.error ("Failed to load filesystem image from " ++ rule.target.text), g)
    | some (some data) =>
        let image : ImageSource := ⟨data, UInt32.ofNat data.length, some (cStr ['a', 'u', 't', 'o'])⟩
        let (ret, after) := mountMemfs env.loader image inode rule.filename g
        if ret < 1 then
          (.error ("Failed to mount filesystem image from " ++ rule.target.text), after)
        else (.ok (), after)

/-- One round of `process_mountpoints`. It relies on a root image being mounted. -/
def processRule (fuel : Nat) (item : CString) (g : Globals) : Option RuleResult :=
  match splitRule item with
  | none => some (.error ("Invalid input: missing ':' or '>' separator in " ++ item.text), g)
  | some rule =>
      if isAbsolute rule.mountpoint.chars then
        some (.error ("Path " ++ rule.mountpoint.text ++ " is not within tebako memfs"), g)
      else if rule.filename.chars = [] ∨ rule.target.chars = [] then
        some (.error ("Invalid input: path or filename or target is empty in " ++ item.text), g)
      else
        match g.memfsTable[(0 : UInt32)]? with
        | none => none
        | some root =>
            (dwarfsInodeRelativeStat (g.world env.hostStat) fuel root.dwarfsRootInode rule.path false).map
              fun found => match found with
                | .error _ =>
                    (.error ("Path " ++ rule.path.text ++ " does not exist or is not accessible"), g)
                | .ok (.linkOutside _ _) =>
                    (.error ("Path " ++ rule.path.text ++ " is not within tebako memfs"), g)
                | .ok found => mountRule env rule found.stat g

/-- The rules are processed one after the other, up to the first exception. -/
def processMountpoints (fuel : Nat) : List CString → Globals → Option RuleResult
  | [], g => some (.ok (), g)
  | item :: rest, g =>
      match processRule env fuel item g with
      | none => none
      | some (.error message, after) => some (.error message, after)
      | some (.ok (), after) => processMountpoints fuel rest after

/-! ## When a rule is in effect -/

/-- What the mount table is asked for next. -/
def FindState.key : FindState → Option TebakoMountPoint
  | .start _ _ _ => none
  | .walk _ _ _ [] => none
  | .walk memfs pi _ (name :: _) =>
      if name.chars = [] then none else some (memfs.reported pi, name.chars)

namespace MountRule

def start (rule : MountRule) (root : Memfs) : FindState := .start root root.dwarfsRootInode rule.path

/-- The lookup of the rule's directory comes by this mount point. -/
def Passes (w : World) (rule : MountRule) (key : TebakoMountPoint) : Prop :=
  ∃ root state, w.memfsTable[(0 : UInt32)]? = some root ∧
    Relation.ReflTransGen (Moves (findBody w false)) (rule.start root) state ∧ state.key = some key

/-- The target that the rule gives. -/
def Gives (rule : MountRule) (g : Globals) : TebakoMountTarget → Prop
  | .path target => rule.toHost = true ∧ target = rule.target
  | .memfs index => rule.toHost = false ∧ ∃ fs, g.memfsTable[index]? = some fs ∧
      env.readFile rule.target = some (some fs.data)

end MountRule

/-- The mount point has the rule's target already; or it is new, and neither the
directory of this rule nor that of an earlier one is found through it. -/
def MountRule.Fresh (rule : MountRule) (items : List CString) (g : Globals) (key : TebakoMountPoint) : Prop :=
  rule.toHost = true ∧ g.mountTable[key]? = some (.path rule.target) ∨
    key ∉ g.mountTable ∧ ∀ item ∈ items, ∀ earlier, splitRule item = some earlier →
      ¬ earlier.Passes (g.world env.hostStat) key

/-- Where the directory is found, it is found without a link back into the
memfs and is no link itself, the names of the rule are plain and fit, and its
mount point is fresh. -/
def RuleAllowed (state : List CString × Globals) (item : CString) : Prop :=
  ∀ rule root found, splitRule item = some rule → state.2.memfsTable[(0 : UInt32)]? = some root →
    Returns (findBody (state.2.world env.hostStat) false) (rule.start root) found →
    match found with
    | .error _ => True
    | .ok (.inode st) => st.isLnk = false ∧
        (∀ name ∈ names rule.mountpoint.chars, Plain name) ∧
        (belowMountPoint rule.mountpoint.chars).normal.chars.length ≤ tebakoPathLength ∧
        rule.Fresh env (item :: state.1) state.2 (st.ino.toUInt32, rule.filename.chars)
    | .ok (.linkAbsolute lnk _) => isTebakoPath lnk = false
    | .ok _ => False

/-- The rules accepted so far, the last one first, and the state they have led to. -/
def ruleStep (fuel : Nat) : Machine (List CString × Globals) CString (Option RuleResult)
  | item, (done, g) =>
      match processRule env fuel item g with
      | some (.ok (), after) => (some (.ok (), after), (item :: done, after))
      | result => (result, (done, g))

/-- Images come out of the loader as dwarfs makes them. -/
def MountEnv.LoadsRegular : Prop :=
  ∀ memfs imageOffset, (Memfs.load env.loader imageOffset memfs).1 = 0 →
    (Memfs.load env.loader imageOffset memfs).2.Regular

variable {env : MountEnv} {fuel : Nat} {item : CString} {g after : Globals} {rule : MountRule}
variable {root memfs : Memfs} {st : FileStat} {target : TebakoMountTarget} {key : TebakoMountPoint}
variable {state : FindState} {done : List CString}

/-! ## The path of a mount point -/

theorem mountpoint_chars (rule : MountRule) :
    rule.path.chars = parentPath rule.mountpoint.chars ∧
      rule.filename.chars = lastSegment rule.mountpoint.chars := by
  constructor
  · refine cStr_chars_of_noNul fun nul => rule.mountpoint.noNul ?_
    have within : parentPath rule.mountpoint.chars <+: rule.mountpoint.chars :=
      (List.rdropWhile_prefix _ _).trans (List.rdropWhile_prefix _ _)
    exact within.subset nul
  · refine cStr_chars_of_noNul fun nul => rule.mountpoint.noNul ?_
    have present : segments rule.mountpoint.chars ≠ [] := List.splitOn_ne_nil _ _
    refine mem_of_mem_segment (List.getLast_mem present) ?_
    rwa [lastSegment, List.getLastD_eq_getLast?, List.getLast?_eq_some_getLast present] at nul

theorem belowMountPoint_chars (path : CString) :
    (belowMountPoint path.chars).chars = tebakoMountPoint ++ '/' :: path.chars := by
  refine cStr_chars_of_noNul fun nul => ?_
  rcases List.mem_append.mp nul with inside | inside
  · exact absurd inside (by decide)
  · rcases List.mem_cons.mp inside with separator | inside
    · exact absurd separator (by decide)
    · exact path.noNul inside

/-! ## What an accepted rule changes -/

/-- At most this mount point is new; images may have been added. -/
structure Globals.Grows (g after : Globals) (key : TebakoMountPoint) : Prop where
  images : ∀ (index : UInt32) (memfs : Memfs), g.memfsTable[index]? = some memfs →
    after.memfsTable[index]? = some memfs
  mounts : ∀ other : TebakoMountPoint, other ≠ key → after.mountTable[other]? = g.mountTable[other]?
  targets : ∀ (other : TebakoMountPoint) (target : TebakoMountTarget),
    g.mountTable[other]? = some target → after.mountTable[other]? = some target

theorem findBody_grows {host : CString → Except Errno FileStat} (grows : g.Grows after key)
    (elsewhere : state.key ≠ some key) (proceeds : Proceeds (g.world host) false state) :
    findBody (after.world host) false state = findBody (g.world host) false state := by
  cases state with
  | start memfs inode path => rfl
  | walk memfs pi st rest =>
      cases rest with
      | nil => rfl
      | cons name rest =>
          by_cases named : name.chars = []
          · simp only [findBody, named, ↓reduceIte]
          · have other : (memfs.reported pi, name.chars) ≠ key := by
              intro same
              subst same
              exact elsewhere (by simp only [FindState.key, named, ↓reduceIte])
            have mounts := grows.mounts _ other
            cases mount : g.mountTable[(memfs.reported pi, name.chars)]? with
            | none => simp only [findBody, named, ↓reduceIte, Globals.world, mounts, mount]
            | some there =>
                cases there with
                | path target => simp only [findBody, named, ↓reduceIte, Globals.world, mounts, mount]
                | memfs index =>
                    cases held : g.memfsTable[index]? with
                    | none =>
                        have lost : findBody (g.world host) false (.walk memfs pi st (name :: rest)) =
                            .halt (.error .ENOENT) := by
                          simp only [findBody, named, ↓reduceIte, Globals.world, mount, held]
                        exact absurd rfl ((proceeds _ lost).1 .ENOENT)
                    | some mounted =>
                        simp only [findBody, named, ↓reduceIte, Globals.world, mounts, mount, held,
                          grows.images _ _ held]

/-- A lookup that does not come by the new mount point ends where it did before. -/
theorem returns_grows {host : CString → Except Errno FileStat} (grows : g.Grows after key)
    (notLink : st.isLnk = false) (returned : Returns (findBody (g.world host) false) state (.ok (.inode st)))
    (elsewhere : ∀ reached, Relation.ReflTransGen (Moves (findBody (g.world host) false)) state reached →
      reached.key ≠ some key) :
    Returns (findBody (after.world host) false) state (.ok (.inode st)) := by
  refine (returns_iff_of_agree fun reached path => ?_).mpr returned
  exact findBody_grows grows (elsewhere reached path)
    (proceeds_of_returns notLink ((returns_of_reaches path).mp returned))

/-- The rule's directory is found without a link, and its mount point is there
with the target that the rule gives. -/
structure MountRule.Settled (env : MountEnv) (g : Globals) (rule : MountRule) (root : Memfs)
    (st : FileStat) (target : TebakoMountTarget) : Prop where
  rooted : g.memfsTable[(0 : UInt32)]? = some root
  returned : Returns (findBody (g.world env.hostStat) false) (rule.start root) (.ok (.inode st))
  notLink : st.isLnk = false
  relative : isAbsolute rule.mountpoint.chars = false
  named : rule.filename.chars ≠ []
  plain : ∀ name ∈ names rule.mountpoint.chars, Plain name
  fits : (belowMountPoint rule.mountpoint.chars).normal.chars.length ≤ tebakoPathLength
  entry : g.mountTable[(st.ino.toUInt32, rule.filename.chars)]? = some target
  gives : rule.Gives env g target

theorem MountRule.Gives.grows (gives : rule.Gives env g target) (grows : g.Grows after key) :
    rule.Gives env after target := by
  cases target with
  | path target => exact gives
  | memfs index =>
      obtain ⟨image, fs, held, read⟩ := gives
      exact ⟨image, fs, grows.images _ _ held, read⟩

theorem MountRule.Settled.grows (settled : rule.Settled env g root st target)
    (grows : g.Grows after key) (elsewhere : ¬ rule.Passes (g.world env.hostStat) key) :
    rule.Settled env after root st target where
  rooted := grows.images _ _ settled.rooted
  returned := by
    refine returns_grows grows settled.notLink settled.returned fun reached path same => ?_
    exact elsewhere ⟨root, reached, settled.rooted, path, same⟩
  notLink := settled.notLink
  relative := settled.relative
  named := settled.named
  plain := settled.plain
  fits := settled.fits
  entry := grows.targets _ _ settled.entry
  gives := settled.gives.grows grows

/-- Over a root image, an image is mounted where neither its slot nor the mount
point was taken. -/
theorem mountMemfs_accepted {loader : Loader} {image : ImageSource} {inode : UInt32} {folder : CString}
    (rooted : g.memfsTable[(0 : UInt32)]? = some root)
    (accepted : ¬ (mountMemfs loader image inode folder g).1 < 1) :
    ∃ (index : UInt32) (fs : Memfs), index ∉ g.memfsTable ∧ (inode, folder.chars) ∉ g.mountTable ∧
      (fs.load loader image.imageOffset).1 = 0 ∧ fs.data = image.data ∧
      (mountMemfs loader image inode folder g).2 = { g with
        memfsTable := Std.ExtTreeMap.insert g.memfsTable index (fs.load loader image.imageOffset).2
        mountTable := Std.ExtTreeMap.insert g.mountTable (inode, folder.chars) (.memfs index) } := by
  have failed : ∀ after, mountMemfs loader image inode folder g ≠ (-1, after) := by
    intro after result
    rw [result] at accepted
    exact accepted (show (-1 : Int) < 1 by decide)
  by_cases full : g.nextSlot image = 0
  · have loaded := loadMemfs_of_full loader rooted full
    split at loaded
    · exact absurd (mountMemfs_of_failed loaded) (failed _)
    · have result := @mountMemfs_of_load loader image inode folder g 0 _ (by decide) loaded
      split at result
      · exact absurd result (failed _)
      · rw [result] at accepted
        exact absurd (show ((0 : UInt32).toNat : Int) < 1 by decide) accepted
  · have loaded := loadMemfs_of_free loader full
    obtain ⟨absent, _⟩ := MemfsTable.insertAuto_spec full
    split at loaded
    · exact absurd (mountMemfs_of_failed loaded) (failed _)
    · rename_i ready
      have result := @mountMemfs_of_load loader image inode folder g _ _ (nextSlot_target full).2.1 loaded
      split at result
      · exact absurd result (failed _)
      · rename_i free
        exact ⟨_, g.registered image, absent, free, not_not.mp ready, rfl, congrArg Prod.snd result⟩

theorem mountRule_accepted (rooted : g.memfsTable[(0 : UInt32)]? = some root)
    (accepted : mountRule env rule st g = (.ok (), after)) :
    (rule.toHost = true ∧ after = { g with
        mountTable := g.mountTable.insertIfNew (st.ino.toUInt32, rule.filename.chars) (.path rule.target) }) ∨
      ∃ (index : UInt32) (fs : Memfs) (offset : Option CString), rule.toHost = false ∧
        index ∉ g.memfsTable ∧ (st.ino.toUInt32, rule.filename.chars) ∉ g.mountTable ∧
        (fs.load env.loader offset).1 = 0 ∧ env.readFile rule.target = some (some fs.data) ∧
        after = { g with
          memfsTable := Std.ExtTreeMap.insert g.memfsTable index (fs.load env.loader offset).2
          mountTable := Std.ExtTreeMap.insert g.mountTable (st.ino.toUInt32, rule.filename.chars)
            (.memfs index) } := by
  cases toHost : rule.toHost with
  | true =>
      simp only [mountRule, toHost, ↓reduceIte, Prod.mk.injEq, true_and] at accepted
      exact .inl ⟨rfl, accepted.symm⟩
  | false =>
      right
      simp only [mountRule, toHost, Bool.false_eq_true, ↓reduceIte] at accepted
      split at accepted
      · cases accepted
      · cases accepted
      · rename_i data read
        split at accepted
        · cases accepted
        · rename_i mounted
          obtain ⟨index, fs, absent, free, ready, same, result⟩ := mountMemfs_accepted rooted mounted
          refine ⟨index, fs, _, rfl, absent, free, ready, ?_, ?_⟩
          · rw [read, same]
          · rw [← result]
            exact (congrArg Prod.snd accepted).symm

theorem grows_insert (free : key ∉ g.mountTable) {table : MemfsTable}
    (images : ∀ (index : UInt32) (memfs : Memfs), g.memfsTable[index]? = some memfs →
      table[index]? = some memfs) :
    g.Grows { g with memfsTable := table, mountTable := Std.ExtTreeMap.insert g.mountTable key target }
      key where
  images := images
  mounts other elsewhere := by
    exact getElem?_insert_ne elsewhere
  targets other target found := by
    exact getElem?_insert_iff.mpr (.inr ⟨ne_of_mem_of_not_mem (mem_of_getElem? found) free, found⟩)

/-- Where the mount point is fresh, the rule is the one that it is from. -/
theorem mountRule_grows (rooted : g.memfsTable[(0 : UInt32)]? = some root)
    (accepted : mountRule env rule st g = (.ok (), after))
    (fresh : rule.toHost = true ∧
        g.mountTable[(st.ino.toUInt32, rule.filename.chars)]? = some (.path rule.target) ∨
      (st.ino.toUInt32, rule.filename.chars) ∉ g.mountTable) :
    (after = g ∨ (st.ino.toUInt32, rule.filename.chars) ∉ g.mountTable ∧
      g.Grows after (st.ino.toUInt32, rule.filename.chars)) ∧
    ∃ target, after.mountTable[(st.ino.toUInt32, rule.filename.chars)]? = some target ∧
      rule.Gives env after target := by
  rcases mountRule_accepted rooted accepted with
    ⟨toHost, rfl⟩ | ⟨index, fs, offset, toImage, absent, free, ready, read, rfl⟩
  · rcases fresh with ⟨_, taken⟩ | free
    · rw [insertIfNew_of_mem (mem_of_getElem? taken)]
      exact ⟨.inl rfl, _, taken, toHost, rfl⟩
    · rw [insertIfNew_of_not_mem free]
      exact ⟨.inr ⟨free, grows_insert free fun _ _ held => held⟩, _,
        Std.ExtTreeMap.getElem?_insert_self, toHost, rfl⟩
  · refine ⟨.inr ⟨free, grows_insert free fun other memfs held => ?_⟩, _,
      Std.ExtTreeMap.getElem?_insert_self, toImage, _, Std.ExtTreeMap.getElem?_insert_self, ?_⟩
    · exact getElem?_insert_iff.mpr (.inr ⟨ne_of_mem_of_not_mem (mem_of_getElem? held) absent, held⟩)
    · rw [read, (Memfs.load_same env.loader offset fs).2.1]

theorem mountRule_regular (loads : env.LoadsRegular) (regular : (g.world env.hostStat).Regular)
    (rooted : g.memfsTable[(0 : UInt32)]? = some root)
    (accepted : mountRule env rule st g = (.ok (), after)) (plain : Plain rule.filename.chars) :
    (after.world env.hostStat).Regular := by
  have named : ∀ {inode : UInt32} {name : Str}, name = dot ∨ name = dotDot →
      (st.ino.toUInt32, rule.filename.chars) ≠ (inode, name) := by
    intro inode name dots same
    cases same
    exact dots.elim plain.notDot plain.notDotDot
  rcases mountRule_accepted rooted accepted with
    ⟨toHost, rfl⟩ | ⟨index, fs, offset, toImage, absent, free, ready, read, rfl⟩
  · refine ⟨regular.images, fun dots => ?_⟩
    refine (Std.ExtTreeMap.getElem?_insertIfNew).trans ((if_neg fun same => ?_).trans (regular.mounts dots))
    exact named dots (Std.LawfulEqCmp.eq_of_compare same.1)
  · refine ⟨fun {other memfs} held => ?_, fun dots => ?_⟩
    · rcases getElem?_insert_iff.mp held with ⟨_, own⟩ | ⟨_, before⟩
      · cases own
        exact loads _ _ ready
      · exact regular.images before
    · exact (getElem?_insert_ne (named dots).symm).trans (regular.mounts dots)

/-! ## A settled rule is in effect -/

theorem outline_mountpoint (named : rule.filename.chars ≠ [])
    (plain : ∀ name ∈ names rule.mountpoint.chars, Plain name) :
    names rule.mountpoint.chars = names rule.path.chars ++ [rule.filename.chars] ∧
      outline (belowMountPoint rule.mountpoint.chars).chars =
        ⟨true, tebakoMountPointName :: names rule.mountpoint.chars, false⟩ := by
  obtain ⟨path, filename⟩ := mountpoint_chars rule
  rw [filename] at named
  have split := names_parentPath named
  rw [path, filename]
  refine ⟨split, ?_⟩
  have spelled := belowMountPoint_chars rule.mountpoint
  rw [tebakoMountPoint, List.cons_append, ← List.nil_append ('/' :: _)] at spelled
  have listed : names (belowMountPoint rule.mountpoint.chars).chars =
      tebakoMountPointName :: names rule.mountpoint.chars := by
    rw [spelled, names_append_separator, names_append_separator, names_nil,
      names_single mountPoint_nonempty mountPoint_clean]
    rfl
  have ended : lastSegment (belowMountPoint rule.mountpoint.chars).chars =
      lastSegment rule.mountpoint.chars := by
    rw [spelled, lastSegment_append_separator, lastSegment_append_separator]
  have last : Plain (lastSegment rule.mountpoint.chars) := plain _ (by rw [split]; simp)
  have kept : collapse true (tebakoMountPointName :: names rule.mountpoint.chars) =
      tebakoMountPointName :: names rule.mountpoint.chars := by
    refine collapse_plain fun name member => ?_
    rcases List.mem_cons.mp member with rfl | inside
    · exact ⟨by decide, by decide, by decide⟩
    · exact plain name inside
  have absolute : isAbsolute (belowMountPoint rule.mountpoint.chars).chars = true := by rw [spelled]; rfl
  simp only [outline, absolute, listed, kept, ended, Outline.mk.injEq, true_and]
  simp [last.nonempty, last.notDot, last.notDotDot]

/-- The name that a rule adds to the path of its directory. -/
def MountRule.Settled.addition (settled : rule.Settled env g root st target) : Addition where
  names := [rule.filename.chars]
  slash := false
  plain := by
    obtain ⟨split, _⟩ := outline_mountpoint settled.named settled.plain
    intro name member
    have listed : name ∈ names rule.mountpoint.chars := by
      rw [split]
      exact List.mem_append_right _ member
    exact ⟨settled.plain name listed, (mem_names listed).2⟩

theorem MountRule.Settled.extends (settled : rule.Settled env g root st target) :
    Extends settled.addition (components rule.path.chars)
      (components ((belowMountPoint rule.mountpoint.chars).normal.drop (tebakoMountPointLength + 1)).chars) := by
  obtain ⟨split, outlined⟩ := outline_mountpoint settled.named settled.plain
  have absolute : isAbsolute (belowMountPoint rule.mountpoint.chars).chars = true :=
    congrArg Outline.rooted outlined
  have below := components_below mountPoint_nonempty mountPoint_clean absolute
    (congrArg Outline.names outlined)
  rw [outlined, split] at below
  have path : components rule.path.chars = names rule.path.chars := by
    rw [(mountpoint_chars rule).1, components_parentPath settled.relative]
  have extended := @Extends.intro settled.addition (names rule.path.chars) [] [] (named_names _)
    (.inl rfl) (.inl rfl) (by simp [MountRule.Settled.addition]) (fun none => nomatch none)
  rw [path, ← List.append_nil (names rule.path.chars)]
  have longer : (components ((belowMountPoint rule.mountpoint.chars).normal.drop
      (tebakoMountPointLength + 1)).chars) = names rule.path.chars ++ settled.addition.names ++ [] := by
    refine below.trans ?_
    simp [MountRule.Settled.addition]
  rw [longer]
  exact extended

theorem processRule_accepted {items : List CString} (rooted : g.memfsTable[(0 : UInt32)]? = some root)
    (zero : root.dwarfsRootInode = 0) (allowed : RuleAllowed env (items, g) item)
    (accepted : processRule env fuel item g = some (.ok (), after)) :
    ∃ rule st, splitRule item = some rule ∧ isAbsolute rule.mountpoint.chars = false ∧
      rule.filename.chars ≠ [] ∧
      Returns (findBody (g.world env.hostStat) false) (rule.start root) (.ok (.inode st)) ∧
      mountRule env rule st g = (.ok (), after) := by
  simp only [processRule] at accepted
  split at accepted
  · cases accepted
  · rename_i rule split
    split at accepted
    · cases accepted
    · rename_i relative
      split at accepted
      · cases accepted
      · rename_i present
        rw [rooted] at accepted
        obtain ⟨found, looked, passed⟩ := Option.map_eq_some_iff.mp accepted
        have request : Request.start (g.world env.hostStat) (.relativeStat root.dwarfsRootInode rule.path) =
            .ok (rule.start root) := by
          have first : getFsIndex root.dwarfsRootInode.toUInt64 = 0 := by
            rw [zero]
            decide
          have held : (g.world env.hostStat).memfsTable[(0 : UInt32)]? = some root := rooted
          simp only [Request.start, first, held]
          rfl
        have answered := Request.run_iff.mp
          ⟨fuel, (show Request.run _ fuel (.relativeStat root.dwarfsRootInode rule.path) false = _ from looked)⟩
        rw [request] at answered
        obtain ⟨reached, returned, _, led⟩ := answered
        have fine := allowed rule root reached split rooted returned
        refine ⟨rule, ?_⟩
        rcases reached with errno | (st | ⟨lnk, st⟩ | ⟨lnk, st⟩ | ⟨lnk, st⟩)
        · cases led
          cases passed
        · cases led
          exact ⟨st, split, eq_false_of_ne_true relative, fun none => present (.inl none), returned, passed⟩
        · exact fine.elim
        · -- a link out of the memfs is refused
          simp only at fine
          simp only [followAbs, fine, Bool.false_eq_true, ↓reduceIte, Option.some.injEq] at led
          cases led
          cases passed
        · exact fine.elim

/-- Every rule so far is settled. -/
structure RulesSettled (env : MountEnv) (done : List CString) (g : Globals) (root : Memfs) : Prop where
  rooted : g.memfsTable[(0 : UInt32)]? = some root
  zero : root.dwarfsRootInode = 0
  regular : (g.world env.hostStat).Regular
  settled : ∀ item ∈ done, ∃ rule st target, splitRule item = some rule ∧ rule.Settled env g root st target

theorem RulesSettled.step (rules : RulesSettled env done g root) (loads : env.LoadsRegular)
    (allowed : RuleAllowed env (done, g) item)
    (accepted : processRule env fuel item g = some (.ok (), after)) :
    RulesSettled env (item :: done) after root := by
  obtain ⟨rule, st, split, relative, named, returned, mounted⟩ :=
    processRule_accepted rules.rooted rules.zero allowed accepted
  obtain ⟨notLink, plain, fits, fresh⟩ := allowed rule root _ split rules.rooted returned
  obtain ⟨changed, target, entry, gives⟩ :=
    mountRule_grows rules.rooted mounted (fresh.imp_right And.left)
  -- no lookup of a rule comes by the mount point, where there is a new one
  have kept : ∀ other ∈ item :: done, ∀ earlier, splitRule other = some earlier → after ≠ g →
      g.Grows after (st.ino.toUInt32, rule.filename.chars) ∧
        ¬ earlier.Passes (g.world env.hostStat) (st.ino.toUInt32, rule.filename.chars) := by
    intro other listed earlier other_split new
    obtain ⟨free, grows⟩ := changed.resolve_left new
    rcases fresh with ⟨_, taken⟩ | ⟨_, elsewhere⟩
    · exact absurd (mem_of_getElem? taken) free
    · exact ⟨grows, elsewhere other listed earlier other_split⟩
  have last : Plain rule.filename.chars := by
    refine plain _ ?_
    rw [(outline_mountpoint named plain).1]
    simp
  refine ⟨?_, rules.zero, mountRule_regular loads rules.regular rules.rooted mounted last, ?_⟩
  · by_cases same : after = g
    · exact same ▸ rules.rooted
    · exact (kept item (by simp) rule split same).1.images _ _ rules.rooted
  · intro other listed
    rcases List.mem_cons.mp listed with rfl | earlier
    · refine ⟨rule, st, target, split, ?_⟩
      have before : Returns (findBody (after.world env.hostStat) false) (rule.start root) (.ok (.inode st)) ∧
          after.memfsTable[(0 : UInt32)]? = some root := by
        by_cases same : after = g
        · exact same ▸ ⟨returned, rules.rooted⟩
        · obtain ⟨grows, elsewhere⟩ := kept _ listed rule split same
          refine ⟨returns_grows grows notLink returned fun reached path here => ?_,
            grows.images _ _ rules.rooted⟩
          exact elsewhere ⟨root, reached, rules.rooted, path, here⟩
      exact ⟨before.2, before.1, notLink, relative, named, plain, fits, entry, gives⟩
    · obtain ⟨earlierRule, seen, there, earlierSplit, settled⟩ := rules.settled other earlier
      refine ⟨earlierRule, seen, there, earlierSplit, ?_⟩
      by_cases same : after = g
      · exact same ▸ settled
      · obtain ⟨grows, elsewhere⟩ := kept other listed earlierRule earlierSplit same
        exact settled.grows grows elsewhere

theorem RulesSettled.run {items : List CString} (rules : RulesSettled env done g root)
    (loads : env.LoadsRegular)
    (allowed : Machine.Allows (ruleStep env fuel) (RuleAllowed env) items (done, g))
    (processed : processMountpoints env fuel items g = some (.ok (), after)) :
    RulesSettled env (items.reverse ++ done) after root := by
  induction items generalizing done g with
  | nil =>
      cases processed
      exact rules
  | cons item rest ih =>
      obtain ⟨here, later⟩ := allowed
      simp only [processMountpoints] at processed
      split at processed
      · cases processed
      · cases processed
      · rename_i middle accepted
        have next := rules.step loads here accepted
        rw [ruleStep] at later
        simp only [accepted] at later
        rw [List.reverse_cons, List.append_assoc]
        exact ih next later processed

/-- Every image has a directory, and nothing else. -/
def dirImage : Dwarfs := .ofEntries [⟨0, cStr ['d'], 0o040755, .empty⟩]

def dirEnv : MountEnv where
  loader := { parseOffset := fun _ => none, openImage := fun _ _ _ _ => some dirImage }
  hostStat _ := .error .ENOENT
  readFile _ := some (some [])

end Tebako
