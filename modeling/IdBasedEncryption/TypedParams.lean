import Mathlib.Data.List.DropRight
import IdBasedEncryption.ConfigRoundTrip
import IdBasedEncryption.Transcripts

namespace IdBasedEncryption.TypedParams

open ByteStrings FuelLoops Stdio Config ConfigStore AssocLists ConfigFiles ConfigRoundTrip Transcripts

section Model

def slash : UInt8 := 47

theorem zero_notMem_relative (filespec newfile : CString) :
    0 ∉ filespec.val.rdropWhile (· ≠ slash) ++ newfile.val := by
  rw [List.mem_append, not_or]
  exact ⟨fun h => filespec.property ((List.rdropWhile_prefix _ _).subset h), newfile.property⟩

/-- `newfile` as it is called in the directory of `filespec`. -/
def relativeToFile (filespec : Option CString) (newfile : CString) : CString :=
  match filespec with
  | none => newfile
  | some filespec =>
      if filespec.val = [] ∨ newfile.val.head? = some slash ∨ slash ∉ filespec.val then newfile
      else ⟨_, zero_notMem_relative filespec newfile⟩

/-- A path that has been made once is kept in the entry. -/
def getPathParam (filespec : Option CString) (ctx : ConfCtx) (name : CString) (index : Int)
    (deflt : Option CString) : Option CString × ConfCtx :=
  match getIndex ctx name index with
  | none => (deflt, ctx)
  | some i =>
      match ctx.configParam[i]? with
      | none => (deflt, ctx)
      | some e =>
          match e.path with
          | some path => (some path, ctx)
          | none =>
              let path := relativeToFile filespec e.value
              (some path, ⟨ctx.configParam.modify i fun e => { e with path := some path }⟩)

def getBoolParam (ctx : ConfCtx) (name : CString) (index deflt : Int) : Int :=
  match getStringParam ctx name index none with
  | none => deflt
  | some temp => if temp.val.head?.any (· ∈ bytes "1tTyY") then 1 else 0

/-- Every text with a semicolon behind it, as long as there is room for them. -/
def joinList (size : Nat) : List CString → Option ByteString
  | [] => some []
  | v :: vs =>
      let len := strlen v.val + 1
      if maxline < size + len then none
      else (joinList (size + len) vs).map fun str => v.val ++ 59 :: str

/-- For an empty list the byte in front of the buffer is written to. -/
def setListParam (ctx : ConfCtx) (name : CString) (index : Int) (value : List CString) :
    Option (Int × ConfCtx) :=
  match joinList 0 value with
  | none => some (1, ctx)
  | some str =>
      if str = [] then none
      else some (setStringParam ctx name index (charstarFromByteString str.dropLast))

def destructCTX (_ : ConfCtx) : Int × ConfCtx := (0, ⟨[]⟩)

end Model

section Machine

inductive Op
  | getString (name : CString) (index : Int) (deflt : Option CString)
  | getPath (name : CString) (index : Int) (deflt : Option CString)
  | getInt (name : CString) (index deflt : Int)
  | getBool (name : CString) (index deflt : Int)
  | getList (name : CString) (index : Int) (deflt : Option (List ByteString))
  | set (c : Call)
  | setList (name : CString) (index : Int) (value : List CString)
  | destruct

inductive Answer
  | text (s : Option CString)
  | number (n : Int)
  | list (l : Option (List ByteString))

/-- There is no answer when the entry of a new name is written behind the array. -/
def stored (r : Int × ConfCtx) : Option (Answer × ConfCtx) :=
  if r.2.numParam ≤ maxParam then some (.number r.1, r.2) else none

/-- How a path is looked up. -/
abbrev PathGetter := ConfCtx → CString → Int → Option CString → Option CString × ConfCtx

def step (path : PathGetter) (ctx : ConfCtx) : Op → Option (Answer × ConfCtx)
  | .getString name index deflt => some (.text (getStringParam ctx name index deflt), ctx)
  | .getPath name index deflt =>
      let r := path ctx name index deflt
      some (.text r.1, r.2)
  | .getInt name index deflt => some (.number (getIntParam ctx name index deflt), ctx)
  | .getBool name index deflt => some (.number (getBoolParam ctx name index deflt), ctx)
  | .getList name index deflt => some (.list (getListParam ctx name index deflt), ctx)
  | .set c => stored (c.run ctx)
  | .setList name index value => (setListParam ctx name index value).bind stored
  | .destruct =>
      let r := destructCTX ctx
      some (.number r.1, r.2)

/-- The path that belongs to the value of now. -/
def currentPath (filespec : Option CString) : PathGetter := fun ctx name index deflt =>
  (((getStringParam ctx name index none).map (relativeToFile filespec)).or deflt, ctx)

end Machine

section Erasure

/-- The context without its paths. -/
def erase (ctx : ConfCtx) : ConfCtx := ⟨ctx.configParam.map copy⟩

/-- No path belongs to a value that has been overwritten. -/
def Coherent (filespec : Option CString) (ctx : ConfCtx) : Prop :=
  ∀ e ∈ ctx.configParam, ∀ path, e.path = some path → path = relativeToFile filespec e.value

variable {filespec : Option CString} {ctx : ConfCtx} {name : CString} {index : Int}

theorem getIndex_erase (ctx : ConfCtx) (name : CString) (index : Int) :
    getIndex (erase ctx) name index = getIndex ctx name index := by
  rw [getIndex, getIndex, erase, List.findIdx?_map]
  rfl

theorem getStringParam_erase (ctx : ConfCtx) (name : CString) (index : Int) (deflt : Option CString) :
    getStringParam (erase ctx) name index deflt = getStringParam ctx name index deflt := by
  rw [getStringParam, getStringParam, getIndex_erase, erase]
  cases getIndex ctx name index with
  | none => rfl
  | some i =>
      dsimp only
      rw [List.getElem?_map, Option.map_map]
      rfl

theorem map_copy_modify (l : List Assoc) (i : Nat) {f g : Assoc → Assoc}
    (h : ∀ e, copy (f e) = g (copy e)) : (l.modify i f).map copy = (l.map copy).modify i g := by
  apply List.ext_getElem?
  intro j
  simp only [List.getElem?_map, List.getElem?_modify]
  cases l[j]? with
  | none => rfl
  | some e =>
      by_cases hij : i = j
      · simp [hij, h]
      · simp [hij]

theorem mem_modify {l : List Assoc} {i : Nat} {f : Assoc → Assoc} {e : Assoc} (h : e ∈ l.modify i f) :
    e ∈ l ∨ ∃ e' ∈ l[i]?, e = f e' := by
  obtain ⟨j, hj⟩ := List.mem_iff_getElem?.1 h
  rw [List.getElem?_modify] at hj
  by_cases hij : i = j
  · subst hij
    simp only [if_true, Option.map_eq_map, Option.map_eq_some_iff] at hj
    obtain ⟨e', he', rfl⟩ := hj
    exact .inr ⟨e', he', rfl⟩
  · simp only [if_neg hij] at hj
    exact .inl (List.mem_iff_getElem?.2 ⟨j, by simpa using hj⟩)

theorem setStringParam_erase (ctx : ConfCtx) (name : CString) (index : Int) (value : CString) :
    setStringParam (erase ctx) name index value =
      ((setStringParam ctx name index value).1, erase (setStringParam ctx name index value).2) := by
  rw [setStringParam, setStringParam, getIndex_erase]
  split
  · rfl
  · cases getIndex ctx name index with
    | none => simp [erase, copy]
    | some i =>
        have hmodify := map_copy_modify ctx.configParam i
          (f := fun e => ⟨e.type, value, none⟩) (g := fun e => ⟨e.type, value, none⟩) fun _ => rfl
        simp only [erase, hmodify]

/-- A new value has no path yet. -/
theorem Coherent.setStringParam (h : Coherent filespec ctx) (name : CString) (index : Int)
    (value : CString) : Coherent filespec (setStringParam ctx name index value).2 := by
  rw [Config.setStringParam]
  split
  · exact h
  · cases getIndex ctx name index with
    | none =>
        intro e he path hpath
        rcases List.mem_append.1 he with he | he
        · exact h e he path hpath
        · obtain rfl := List.mem_singleton.1 he
          cases hpath
    | some i =>
        intro e he path hpath
        rcases mem_modify he with he | ⟨e', -, rfl⟩
        · exact h e he path hpath
        · cases hpath

/-- What is kept is what would be made of the value again. -/
theorem getPathParam_eq (h : Coherent filespec ctx) (name : CString) (index : Int)
    (deflt : Option CString) :
    (getPathParam filespec ctx name index deflt).1 =
        (currentPath filespec (erase ctx) name index deflt).1 ∧
      erase (getPathParam filespec ctx name index deflt).2 = erase ctx ∧
      Coherent filespec (getPathParam filespec ctx name index deflt).2 := by
  rw [currentPath, getStringParam_erase, getPathParam, Config.getStringParam]
  cases hindex : getIndex ctx name index with
  | none => exact ⟨rfl, rfl, h⟩
  | some i =>
      dsimp only
      cases hget : ctx.configParam[i]? with
      | none => exact ⟨rfl, rfl, h⟩
      | some e =>
          have hmem : e ∈ ctx.configParam := List.mem_of_getElem? hget
          dsimp only
          cases hpath : e.path with
          | some path => exact ⟨congrArg some (h e hmem path hpath), rfl, h⟩
          | none =>
              refine ⟨rfl, ?_, ?_⟩
              · have hmodify := map_copy_modify ctx.configParam i
                  (f := fun e' => { e' with path := some (relativeToFile filespec e.value) })
                  (g := fun e => e) fun _ => rfl
                have hid : (ctx.configParam.map copy).modify i (fun e => e) = ctx.configParam.map copy :=
                  List.modify_id ..
                simp only [erase, hmodify, hid]
              · intro e' he' path hpath'
                rcases mem_modify he' with he' | ⟨e₀, he₀, rfl⟩
                · exact h e' he' path hpath'
                · rw [hget] at he₀
                  obtain rfl := Option.some.inj he₀
                  exact (Option.some.inj hpath').symm

theorem setListParam_erase (ctx : ConfCtx) (name : CString) (index : Int) (value : List CString) :
    setListParam (erase ctx) name index value =
      (setListParam ctx name index value).map fun r => (r.1, erase r.2) := by
  rw [setListParam, setListParam]
  cases joinList 0 value with
  | none => rfl
  | some str =>
      dsimp only
      split
      · rfl
      · exact congrArg some (setStringParam_erase ..)

theorem Coherent.setListParam {value : List CString} {r : Int × ConfCtx}
    (h : Coherent filespec ctx) (hset : setListParam ctx name index value = some r) :
    Coherent filespec r.2 := by
  rw [TypedParams.setListParam] at hset
  cases hjoin : joinList 0 value with
  | none =>
      rw [hjoin] at hset
      obtain rfl := Option.some.inj hset
      exact h
  | some str =>
      rw [hjoin] at hset
      dsimp only at hset
      split at hset
      · cases hset
      · obtain rfl := Option.some.inj hset
        exact h.setStringParam name index _

end Erasure

section Runs

variable {filespec : Option CString} {ctx ctx' : ConfCtx}

/-- A context with paths and the same context without them. -/
def Simulates (filespec : Option CString) (ctx ctx' : ConfCtx) : Prop :=
  Coherent filespec ctx ∧ ctx' = erase ctx

theorem simulates_stored {r r' : Int × ConfCtx} (h : Coherent filespec r.2)
    (hr : r' = (r.1, erase r.2)) :
    Option.Rel (fun a b => a.1 = b.1 ∧ Simulates filespec a.2 b.2) (stored r) (stored r') := by
  subst hr
  have hnum : (erase r.2).numParam = r.2.numParam := List.length_map ..
  rw [stored, stored, hnum]
  split
  · exact .some ⟨rfl, h, rfl⟩
  · exact .none

theorem simulates_step (h : Simulates filespec ctx ctx') (op : Op) :
    Option.Rel (fun a b => a.1 = b.1 ∧ Simulates filespec a.2 b.2)
      (step (getPathParam filespec) ctx op) (step (currentPath filespec) ctx' op) := by
  obtain ⟨hcoherent, rfl⟩ := h
  cases op with
  | getString name index deflt =>
      exact .some ⟨by rw [getStringParam_erase], hcoherent, rfl⟩
  | getPath name index deflt =>
      obtain ⟨hpath, herase, hcoherent'⟩ := getPathParam_eq hcoherent name index deflt
      exact .some ⟨congrArg Answer.text hpath, hcoherent', herase.symm⟩
  | getInt name index deflt =>
      refine .some ⟨?_, hcoherent, rfl⟩
      rw [getIntParam, getIntParam, getStringParam_erase]
  | getBool name index deflt =>
      refine .some ⟨?_, hcoherent, rfl⟩
      rw [getBoolParam, getBoolParam, getStringParam_erase]
  | getList name index deflt =>
      refine .some ⟨?_, hcoherent, rfl⟩
      rw [getListParam, getListParam, getStringParam_erase]
  | set c =>
      have hrun := setStringParam_erase ctx c.name c.index c.value
      have hnext := hcoherent.setStringParam c.name c.index c.value
      rw [← Call.run_eq] at hrun hnext
      rw [← Call.run_eq] at hrun
      exact simulates_stored hnext hrun
  | setList name index value =>
      rw [step, step, setListParam_erase]
      cases hset : setListParam ctx name index value with
      | none => exact .none
      | some r => exact simulates_stored (hcoherent.setListParam hset) rfl
  | destruct =>
      exact .some ⟨rfl, fun e he => absurd he List.not_mem_nil, rfl⟩

/-- A file has no paths. -/
theorem path_of_returns {filename : CString} {file : Option ByteString}
    (h : Returns (loadConfig filename file) (.ok ctx)) : ∀ e ∈ ctx.configParam, e.path = none := by
  cases file with
  | none => cases (returns_some _).unique h
  | some bs =>
      let I : Loading → Prop := fun s => ∀ e ∈ s.params, e.path = none
      let Q : Except ByteString ConfCtx → Prop := fun r => ∀ c, r = .ok c →
        ∀ e ∈ c.configParam, e.path = none
      refine Returns.invariant (I := I) (Q := Q) h (fun e he => absurd he List.not_mem_nil) ?_ ?_ ctx rfl
      · intro s t hs ht
        rw [loadRound] at ht
        split at ht
        · cases ht
        · dsimp only at ht
          split at ht
          · cases ht
          · next hload =>
              obtain rfl := Sum.inr.inj ht
              rw [loadLine] at hload
              dsimp only at hload
              split_ifs at hload
              · obtain rfl := Except.ok.inj hload
                exact hs
              · obtain rfl := Except.ok.inj hload
                exact hs
              · obtain rfl := Except.ok.inj hload
                intro e he
                rcases List.mem_append.1 he with he | he
                · exact hs e he
                · obtain rfl := List.mem_singleton.1 he
                  rfl
      · rintro s _ hs ha c rfl
        rw [loadRound] at ha
        split at ha
        · obtain rfl := Except.ok.inj (Sum.inl.inj ha)
          exact hs
        · dsimp only at ha
          split at ha
          · cases Sum.inl.inj ha
          · cases ha

/-- However the parameters are read and set, as long as the array has room,
`GetPathParam` behaves as if it kept nothing. -/
theorem transcript_getPathParam {filename : CString} {file : Option ByteString}
    (h : Returns (loadConfig filename file) (.ok ctx)) (ops : List Op) :
    transcript (step (getPathParam (some filename))) ctx ops =
      transcript (step (currentPath (some filename))) ctx ops := by
  have hpath := path_of_returns h
  refine transcript_eq (R := Simulates (some filename)) (fun s t i hs => simulates_step hs i) ⟨?_, ?_⟩ ops
  · intro e he path hsome
    rw [hpath e he] at hsome
    cases hsome
  · have hcopy : ∀ e ∈ ctx.configParam, copy e = id e := fun e he => by rw [copy, ← hpath e he]; rfl
    rw [erase, List.map_congr_left hcopy, List.map_id]

theorem legalCtx_hostA : LegalCtx ⟨[⟨servers, hostA, none⟩]⟩ :=
  legalCtx_servers (by decide) (by decide)

theorem readable_hostA : Readable ⟨servers, hostA, none⟩ :=
  ⟨by decide, ⟨97, by decide, by decide⟩, by decide⟩

/-- The path is asked for in front of a new value and behind it. -/
theorem transcript_getPathParam_hostA :
    transcript (step (getPathParam (some configFile))) ⟨[⟨servers, hostA, none⟩]⟩
        [.getPath servers 0 none, .set (.string servers 0 configFile), .getPath servers 0 none] =
      transcript (step (currentPath (some configFile))) ⟨[⟨servers, hostA, none⟩]⟩
        [.getPath servers 0 none, .set (.string servers 0 configFile), .getPath servers 0 none] :=
  transcript_getPathParam (returns_copy configFile legalCtx_hostA
    fun _ he => (List.mem_singleton.1 he).symm ▸ readable_hostA) _

end Runs

end IdBasedEncryption.TypedParams
