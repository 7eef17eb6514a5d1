import IdBasedEncryption.AccessTraces
import IdBasedEncryption.Config
import IdBasedEncryption.FuelLoops
import IdBasedEncryption.IbeLib

namespace IdBasedEncryption.ShareCollection

open ByteStrings AccessTraces FuelLoops Config IbeLib

section Model

inductive Place
  | servers (i : Nat)
  | hostname (i : Nat)
  | port (i : Nat)
  deriving DecidableEq

/-- The blocks of the heap are numbered in the order of their allocation. A cell of
`hostname` holds the number of a block unless nothing has been stored there. -/
structure Collect where
  i : Nat
  success : Nat
  heap : List ByteString
  hostname : Nat → Option Nat
  port : Nat → Option Int
  freed : List (Option Nat)
  log : List (Access Place)

def collectInit : Collect := ⟨0, 0, [], fun _ => none, fun _ => none, [], []⟩

/-- What `single_request` returns when it is called for the `i`-th time, which may
depend on the server. -/
abbrev Outcomes := Nat → ByteString → Int → Int

variable (defaultPort : Int) (singleRequest : Outcomes) (t : Int) (servers : List ByteString)

def serverName (server : ByteString) : ByteString := server.takeWhile (· ≠ 58)

/-- The number behind the colon, if anything is there. -/
def serverPort (server : ByteString) : Int :=
  let j := (serverName server).length
  if j + 1 ≥ server.length then defaultPort else atoi (server.drop (j + 1))

/-- One server is tried. The number of attempts is the index of both arrays, and
the number of successes ends the loop. -/
def collectRound (c : Collect) : (Int × Collect) ⊕ Collect :=
  if c.success < t then
    let log := c.log ++ [.read (.servers c.i)]
    match servers[c.i]? with
    | none => .inl (1, { c with log })
    | some server =>
        let name := serverName server
        let number := serverPort defaultPort server
        let status := singleRequest c.i name number
        .inr { c with
          i := c.i + 1
          success := if status = 1 then c.success + 1 else c.success
          heap := c.heap ++ [name]
          hostname := Function.update c.hostname c.i (some c.heap.length)
          port := Function.update c.port c.i (some number)
          log := log ++ [.write (.hostname c.i)] ++ [.write (.port c.i)] }
  else .inl (0, { c with freed := (List.range t.toNat).map c.hostname })

def collect : Nat → Option (Int × Collect) :=
  loop (collectRound defaultPort singleRequest t servers) collectInit

theorem zero_notMem_defaultPort : 0 ∉ bytes "default_port" := by decide

def defaultPortName : CString := ⟨bytes "default_port", zero_notMem_defaultPort⟩

theorem zero_notMem_servers : 0 ∉ bytes "servers" := by decide

def serversName : CString := ⟨bytes "servers", zero_notMem_servers⟩

/-- `request` behind the set-up of SSL. -/
def request (params : Params) (cnfctx : ConfCtx) (argv : List CString) (fuel : Nat) :
    Option (Int × Collect) :=
  if argv.length < 2 then some (1, collectInit)
  else
    let defaultPort := getIntParam cnfctx defaultPortName 0 31831
    match getListParam cnfctx serversName 0 none with
    | none => some (1, collectInit)
    | some servers => collect defaultPort singleRequest params.sharet servers fuel

end Model

/-- The arrays of `t` cells and the list with its terminator are not left, and what
was allocated is freed, each block once. -/
structure Contained (t : Nat) (servers : List ByteString) (c : Collect) : Prop where
  writes : WritesIn (fun a => ∀ i, a = .hostname i ∨ a = .port i → i < t) c.log
  reads : ∀ i, .read (.servers i) ∈ c.log → i ≤ servers.length
  freed : c.freed.Perm ((List.range c.heap.length).map some)

section Runs

variable (defaultPort : Int) (singleRequest : Outcomes) (t : Nat) (servers : List ByteString)

/-- The outcome of the `i`-th attempt. -/
def Succeeds (i : Nat) : Prop := ∀ server ∈ servers[i]?,
  singleRequest i (serverName server) (serverPort defaultPort server) = 1

instance instDecidableSucceeds (i : Nat) :
    Decidable (Succeeds defaultPort singleRequest servers i) := by
  unfold Succeeds
  infer_instance

def successes (k : Nat) : Nat :=
  ((List.range k).filter fun i => Succeeds defaultPort singleRequest servers i).length

/-- The state after `k` attempts. -/
def after (k : Nat) : Collect where
  i := k
  success := successes defaultPort singleRequest servers k
  heap := (servers.take k).map serverName
  hostname i := if i < k then some i else none
  port i := if i < k then servers[i]?.map (serverPort defaultPort) else none
  freed := []
  log := (List.range k).flatMap fun i =>
    [.read (.servers i), .write (.hostname i), .write (.port i)]

variable {defaultPort singleRequest t servers}

theorem successes_succ (k : Nat) : successes defaultPort singleRequest servers (k + 1) =
    if Succeeds defaultPort singleRequest servers k then
      successes defaultPort singleRequest servers k + 1
    else successes defaultPort singleRequest servers k := by
  rw [successes, List.range_succ, List.filter_append, List.length_append]
  split
  · next h => simp [h, successes]
  · next h => simp [h, successes]

theorem successes_le (k : Nat) : successes defaultPort singleRequest servers k ≤ k := by
  have h := List.length_filter_le (fun i => decide (Succeeds defaultPort singleRequest servers i))
    (List.range k)
  rwa [List.length_range] at h

theorem successes_mono {k l : Nat} (h : k ≤ l) : successes defaultPort singleRequest servers k ≤
    successes defaultPort singleRequest servers l := by
  induction l, h using Nat.le_induction with
  | base => exact le_rfl
  | succ l _ ih =>
      rw [successes_succ]
      split
      · exact Nat.le_succ_of_le ih
      · exact ih

theorem successes_eq_iff (k : Nat) : successes defaultPort singleRequest servers k = k ↔
    ∀ i < k, Succeeds defaultPort singleRequest servers i := by
  rw [successes]
  conv_lhs => rhs; rw [← List.length_range (n := k)]
  rw [List.length_filter_eq_length_iff]
  simp

theorem collectRound_after {k : Nat} (hk : k < servers.length)
    (ht : successes defaultPort singleRequest servers k < t) :
    collectRound defaultPort singleRequest t servers (after defaultPort singleRequest servers k) =
      .inr (after defaultPort singleRequest servers (k + 1)) := by
  have hget : servers[k]? = some servers[k] := List.getElem?_eq_getElem hk
  have hlen : ((servers.take k).map serverName).length = k := by
    rw [List.length_map, List.length_take_of_le hk.le]
  rw [collectRound]
  simp only [after, hget, hlen]
  rw [if_pos (by exact_mod_cast ht)]
  congr 1
  rw [Collect.mk.injEq]
  refine ⟨rfl, ?_, ?_, ?_, ?_, rfl, ?_⟩
  · have hsucceeds : Succeeds defaultPort singleRequest servers k ↔ singleRequest k
        (serverName servers[k]) (serverPort defaultPort servers[k]) = 1 := by
      simp [Succeeds, hget]
    rw [successes_succ]
    exact if_congr hsucceeds.symm rfl rfl
  · rw [List.take_add_one, hget, List.map_append]
    rfl
  · funext i
    by_cases hi : i = k
    · subst hi
      simp
    · simp only [Function.update_of_ne hi]
      exact if_congr (by omega) rfl rfl
  · funext i
    by_cases hi : i = k
    · subst hi
      simp [hget]
    · simp only [Function.update_of_ne hi]
      exact if_congr (by omega) rfl rfl
  · rw [List.range_succ, List.flatMap_append]
    simp

variable (defaultPort singleRequest t servers) in
/-- The state that the loop is left with behind `m` attempts. -/
def collected (m : Nat) : Collect :=
  { after defaultPort singleRequest servers m with
    freed := (List.range t).map (after defaultPort singleRequest servers m).hostname }

variable (defaultPort singleRequest servers) in
/-- The state that is left behind when the servers run out. -/
def abandoned : Collect :=
  { after defaultPort singleRequest servers servers.length with
    log := (after defaultPort singleRequest servers servers.length).log ++
      [.read (.servers servers.length)] }

theorem collectRound_collected {m : Nat} (ht : t ≤ successes defaultPort singleRequest servers m) :
    collectRound defaultPort singleRequest t servers (after defaultPort singleRequest servers m) =
      .inl (0, collected defaultPort singleRequest t servers m) := by
  rw [collectRound, if_neg]
  · rfl
  · rw [Nat.cast_lt, not_lt]
    exact ht

theorem collectRound_abandoned
    (ht : successes defaultPort singleRequest servers servers.length < t) :
    collectRound defaultPort singleRequest t servers
      (after defaultPort singleRequest servers servers.length) =
        .inl (1, abandoned defaultPort singleRequest servers) := by
  have hget : servers[servers.length]? = none := List.getElem?_eq_none le_rfl
  have hlt : ((after defaultPort singleRequest servers servers.length).success : Int) < t :=
    Nat.cast_lt.2 ht
  rw [collectRound, if_pos hlt]
  simp only [after, hget]
  rfl

/-- The loop ends behind the last success or at the end of the list. -/
theorem returns_collectLoop {k : Nat} (hk : k ≤ servers.length) :
    (∃ m, k ≤ m ∧ m ≤ servers.length ∧ t ≤ successes defaultPort singleRequest servers m ∧
      (∀ j, k ≤ j → j < m → successes defaultPort singleRequest servers j < t) ∧
      Returns (loop (collectRound defaultPort singleRequest t servers)
        (after defaultPort singleRequest servers k))
        (0, collected defaultPort singleRequest t servers m)) ∨
    (successes defaultPort singleRequest servers servers.length < t ∧
      Returns (loop (collectRound defaultPort singleRequest t servers)
        (after defaultPort singleRequest servers k))
        (1, abandoned defaultPort singleRequest servers)) := by
  induction hn : servers.length - k generalizing k with
  | zero =>
      obtain rfl : k = servers.length := by omega
      rcases le_or_gt t (successes defaultPort singleRequest servers servers.length) with ht | ht
      · exact .inl ⟨_, le_rfl, le_rfl, ht, fun j h₁ h₂ => absurd h₂ (not_lt.2 h₁),
          returns_loop_inl (collectRound_collected ht)⟩
      · exact .inr ⟨ht, returns_loop_inl (collectRound_abandoned ht)⟩
  | succ n ih =>
      rcases le_or_gt t (successes defaultPort singleRequest servers k) with ht | ht
      · exact .inl ⟨k, le_rfl, hk, ht, fun j h₁ h₂ => absurd h₂ (not_lt.2 h₁),
          returns_loop_inl (collectRound_collected ht)⟩
      · have hround := collectRound_after (show k < servers.length by omega) ht
        rcases ih (k := k + 1) (by omega) (by omega) with ⟨m, hkm, hm, hsuccess, hbefore, hret⟩ | ⟨hend, hret⟩
        · refine .inl ⟨m, Nat.le_of_succ_le hkm, hm, hsuccess, fun j h₁ h₂ => ?_,
            returns_loop_inr hround hret⟩
          rcases Nat.eq_or_lt_of_le h₁ with rfl | h₁
          · exact ht
          · exact hbefore j h₁ h₂
        · exact .inr ⟨hend, returns_loop_inr hround hret⟩

theorem contained_collected_iff {m : Nat} (hm : m ≤ servers.length)
    (ht : t ≤ successes defaultPort singleRequest servers m) :
    Contained t servers (collected defaultPort singleRequest t servers m) ↔ m = t := by
  have hle : successes defaultPort singleRequest servers m ≤ m := successes_le m
  have hheap : (collected defaultPort singleRequest t servers m).heap.length = m := by
    simp [collected, after, hm]
  constructor
  · intro h
    by_contra hne
    have hlt : t < m := by omega
    have hwrite : .write (.hostname t) ∈ (collected defaultPort singleRequest t servers m).log :=
      List.mem_flatMap.2 ⟨t, List.mem_range.2 hlt, by simp⟩
    exact lt_irrefl t (h.writes _ hwrite t (.inl rfl))
  · rintro rfl
    refine ⟨?_, ?_, ?_⟩
    · intro a ha i hi
      obtain ⟨j, hj, hmem⟩ := List.mem_flatMap.1 ha
      have hj := List.mem_range.1 hj
      rcases hi with rfl | rfl <;> simp at hmem <;> omega
    · intro i hi
      obtain ⟨j, hj, hmem⟩ := List.mem_flatMap.1 hi
      have hj := List.mem_range.1 hj
      simp at hmem
      omega
    · rw [hheap]
      refine List.Perm.of_eq (List.map_congr_left fun i hi => ?_)
      exact if_pos (List.mem_range.1 hi)

/-- What has been allocated before the servers run out is not freed. -/
theorem contained_abandoned_iff :
    Contained t servers (abandoned defaultPort singleRequest servers) ↔ servers = [] := by
  constructor
  · intro h
    have hlen := h.freed.length_eq
    simpa [abandoned, after] using hlen.symm
  · rintro rfl
    refine ⟨?_, ?_, ?_⟩
    · intro a ha i hi
      rcases hi with rfl | rfl <;> simp [abandoned, after] at ha
    · intro i hi
      simp [abandoned, after] at hi
      exact hi.le
    · exact List.Perm.refl []

/-- The loop stays within its arrays exactly when it makes no attempt at all or no
attempt fails. -/
theorem returns_collect : ∃ r, Returns (collect defaultPort singleRequest t servers) r ∧
    (Contained t servers r.2 ↔ servers = [] ∨
      (t ≤ servers.length ∧ ∀ i < t, Succeeds defaultPort singleRequest servers i)) := by
  have hinit : collectInit = after defaultPort singleRequest servers 0 := by
    simp [collectInit, after, successes]
  have hall (h : t ≤ successes defaultPort singleRequest servers t) :
      ∀ i < t, Succeeds defaultPort singleRequest servers i :=
    (successes_eq_iff t).1 (le_antisymm (successes_le t) h)
  rw [collect, hinit]
  rcases returns_collectLoop (Nat.zero_le servers.length) with
    ⟨m, -, hm, hsuccess, hbefore, hret⟩ | ⟨hend, hret⟩
  · refine ⟨_, hret, (contained_collected_iff hm hsuccess).trans ⟨?_, ?_⟩⟩
    · rintro rfl
      exact .inr ⟨hm, hall hsuccess⟩
    · rintro (rfl | ⟨hle, hevery⟩)
      · obtain rfl : m = 0 := Nat.le_zero.1 hm
        exact (Nat.le_zero.1 (hsuccess.trans (successes_le 0))).symm
      · have htm : t ≤ m := hsuccess.trans (successes_le m)
        by_contra hne
        have hlt := hbefore t (Nat.zero_le t) (by omega)
        rw [(successes_eq_iff t).2 hevery] at hlt
        exact lt_irrefl t hlt
  · refine ⟨_, hret, contained_abandoned_iff.trans ?_⟩
    rw [or_iff_left_of_imp]
    rintro ⟨hle, hevery⟩
    have hmono : successes defaultPort singleRequest servers t ≤
        successes defaultPort singleRequest servers servers.length := successes_mono hle
    rw [(successes_eq_iff t).2 hevery] at hmono
    omega

end Runs

section Request

/-- The shares are collected without harm exactly when the list is empty or has as
many servers as are needed and all of these work. -/
theorem contained_iff (singleRequest : Outcomes) (params : Params) {cnfctx : ConfCtx}
    {argv : List CString} {servers : List ByteString} (ht : 0 ≤ params.sharet)
    (hargs : 2 ≤ argv.length) (hservers : getListParam cnfctx serversName 0 none = some servers) :
    ∃ r, Returns (request singleRequest params cnfctx argv) r ∧
      (Contained params.sharet.toNat servers r.2 ↔ servers = [] ∨
        (params.sharet.toNat ≤ servers.length ∧ ∀ i < params.sharet.toNat,
          Succeeds (getIntParam cnfctx defaultPortName 0 31831) singleRequest servers i)) := by
  obtain ⟨t, hsharet⟩ := Int.eq_ofNat_of_zero_le ht
  have hrequest : request singleRequest params cnfctx argv =
      collect (getIntParam cnfctx defaultPortName 0 31831) singleRequest t servers := by
    funext fuel
    simp only [request, if_neg (not_lt.2 hargs), hservers, hsharet]
  rw [hrequest, hsharet, Int.toNat_natCast]
  exact returns_collect

def sampleConfig : ConfCtx :=
  ⟨[⟨serversName, ⟨bytes "a.example.com b.example.com:99", by decide⟩, none⟩]⟩

def sampleServers : List ByteString := [bytes "a.example.com", bytes "b.example.com:99"]

/-- Parameters with a threshold. -/
def sampleParams (sharet : Int) : Params := { paramsInit 11 3 ibeVersion with sharet }

def sampleArgv : List CString := [⟨bytes "request", by decide⟩, ⟨bytes "bob", by decide⟩]

theorem contained_sample : ∃ r,
    Returns (request (fun _ _ _ => 1) (sampleParams 2) sampleConfig sampleArgv) r ∧
      Contained 2 sampleServers r.2 := by
  have hservers : getListParam sampleConfig serversName 0 none = some sampleServers := by
    decide
  obtain ⟨r, hr, hiff⟩ := contained_iff (fun _ _ _ => 1) (sampleParams 2) (by decide)
    (show 2 ≤ sampleArgv.length by decide) hservers
  exact ⟨r, hr, hiff.2 (.inr ⟨le_rfl, fun i _ server _ => rfl⟩)⟩

/-- With the first server down the second one is stored behind the arrays. -/
theorem not_contained : ¬∀ (singleRequest : Outcomes) (fuel : Nat) (r : Int × Collect),
    request singleRequest (sampleParams 1) sampleConfig sampleArgv fuel = some r →
      Contained 1 sampleServers r.2 := by
  intro h
  have hrun : (request (fun i _ _ => if i = 0 then -1 else 1) (sampleParams 1) sampleConfig sampleArgv
      5).map (fun r => decide (.write (.hostname 1) ∈ r.2.log)) = some true := by decide
  obtain ⟨r, hr, hwrite⟩ := Option.map_eq_some_iff.1 hrun
  exact lt_irrefl 1 ((h _ 5 r hr).writes _ (of_decide_eq_true hwrite) 1 (.inl rfl))

end Request

end IdBasedEncryption.ShareCollection
