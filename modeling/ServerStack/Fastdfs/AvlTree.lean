import Mathlib

/-!
# The AVL tree of `avl_tree.c`

Insertion and deletion thread a flag through their recursion that says whether the subtree became
taller or shorter; a node keeps the height of its right subtree minus that of its left one.
-/

namespace ServerStack.Fastdfs

/-- `AVLTreeNode`; the null pointer is `nil`. -/
inductive AvlTree (α : Type*) where
  | nil
  | node (data : α) (left right : AvlTree α) (balance : ℤ)
  deriving DecidableEq

/-- `AVLTreeInfo`; the flag says that there is a `free_data_func`. -/
structure AvlTreeInfo (α : Type*) where
  root : AvlTree α
  freesData : Bool
  compare : α → α → ℤ

namespace AvlTree

variable {α : Type*}

/-! ## Rotations -/

def rotateLeft : AvlTree α → AvlTree α
  | node d l (node rd rl rr rb) b => node rd (node d l rl b) rr rb
  | t => t

def rotateRight : AvlTree α → AvlTree α
  | node d (node ld ll lr lb) r b => node ld ll (node d lr r b) lb
  | t => t

/-- The double rotation of `avlLeftBalanceWhenInsert` and `avlLeftBalanceWhenDelete`. -/
def leftRight : AvlTree α → AvlTree α
  | node d (node ld ll (node rd rl rr rb) lb) r b =>
    let (b', lb') : ℤ × ℤ :=
      if rb = -1 then (1, 0)
      else if rb = 0 then (0, 0)
      else if rb = 1 then (0, -1)
      else (b, lb)
    rotateRight (node d (rotateLeft (node ld ll (node rd rl rr 0) lb')) r b')
  | t => t

/-- The double rotation of `avlRightBalanceWhenInsert` and `avlRightBalanceWhenDelete`. -/
def rightLeft : AvlTree α → AvlTree α
  | node d l (node rd (node ld ll lr lb) rr rb) b =>
    let (b', rb') : ℤ × ℤ :=
      if lb = 1 then (-1, 0)
      else if lb = 0 then (0, 0)
      else if lb = -1 then (0, 1)
      else (b, rb)
    rotateLeft (node d l (rotateRight (node rd (node ld ll lr 0) rr rb')) b')
  | t => t

/-! ## Insertion -/

/-- `avlLeftBalanceWhenInsert`, with the new `taller`. -/
def leftBalanceWhenInsert : AvlTree α → AvlTree α × Bool
  | node d (node ld ll lr lb) r b =>
    if lb = -1 then (rotateRight (node d (node ld ll lr 0) r 0), false)
    else if lb = 1 then (leftRight (node d (node ld ll lr lb) r b), false)
    else (node d (node ld ll lr lb) r b, true)
  | t => (t, true)

/-- `avlRightBalanceWhenInsert`, with the new `taller`. -/
def rightBalanceWhenInsert : AvlTree α → AvlTree α × Bool
  | node d l (node rd rl rr rb) b =>
    if rb = 1 then (rotateLeft (node d l (node rd rl rr 0) 0), false)
    else if rb = -1 then (rightLeft (node d l (node rd rl rr rb) b), false)
    else (node d l (node rd rl rr rb) b, true)
  | t => (t, true)

def tallerLeft (d : α) (l r : AvlTree α) (b : ℤ) (taller : Bool) : AvlTree α × Bool :=
  if taller then
    if b = -1 then leftBalanceWhenInsert (node d l r b)
    else if b = 0 then (node d l r (-1), true)
    else if b = 1 then (node d l r 0, false)
    else (node d l r b, true)
  else (node d l r b, false)

def tallerRight (d : α) (l r : AvlTree α) (b : ℤ) (taller : Bool) : AvlTree α × Bool :=
  if taller then
    if b = -1 then (node d l r 0, false)
    else if b = 0 then (node d l r 1, true)
    else if b = 1 then rightBalanceWhenInsert (node d l r b)
    else (node d l r b, true)
  else (node d l r b, false)

/-- What `avl_tree_insert_loop` and `avl_tree_replace_loop` leave behind. -/
structure Put (α : Type*) where
  tree : AvlTree α
  taller : Bool
  success : ℤ
  -- the datum that compared equal
  found : Option α

def enomem : ℤ := 12

section

variable (compare : α → α → ℤ) (malloc : Bool)

/-- The common part of `avl_tree_insert_loop` and `avl_tree_replace_loop`, which differ in what
becomes of a datum that compares equal. -/
def putLoop (equal : α → α) (target : α) : AvlTree α → Put α
  | nil =>
    if malloc then ⟨node target nil nil 0, true, 1, none⟩ else ⟨nil, false, -enomem, none⟩
  | node d l r b =>
    if 0 < compare d target then
      let p := putLoop equal target l
      let t := tallerLeft d p.tree r b p.taller
      ⟨t.1, t.2, p.success, p.found⟩
    else if compare d target < 0 then
      let p := putLoop equal target r
      let t := tallerRight d l p.tree b p.taller
      ⟨t.1, t.2, p.success, p.found⟩
    else ⟨node (equal d) l r b, false, 0, some d⟩

def insertLoop (target : α) : AvlTree α → Put α := putLoop compare malloc id target

/-- `avl_tree_replace_loop`; the datum that was found is given to `free_data_func`. -/
def replaceLoop (target : α) : AvlTree α → Put α := putLoop compare malloc (fun _ => target) target

end

/-! ## Lookup -/

def findLoop (compare : α → α → ℤ) (target : α) : AvlTree α → Option α
  | nil => none
  | node d l r _ =>
    if 0 < compare d target then findLoop compare target l
    else if compare d target < 0 then findLoop compare target r
    else some d

/-- The datum that `avl_tree_find` returns is changed through its pointer. -/
def modifyLoop (compare : α → α → ℤ) (target : α) (f : α → α) : AvlTree α → AvlTree α
  | nil => nil
  | node d l r b =>
    if 0 < compare d target then node d (modifyLoop compare target f l) r b
    else if compare d target < 0 then node d l (modifyLoop compare target f r) b
    else node (f d) l r b

def findGeLoop (compare : α → α → ℤ) (target : α) : AvlTree α → Option α
  | nil => none
  | node d l r _ =>
    if 0 < compare d target then (findGeLoop compare target l).or (some d)
    else if compare d target < 0 then findGeLoop compare target r
    else some d

/-! ## Deletion -/

/-- `avlLeftBalanceWhenDelete`, with the new `shorter`. -/
def leftBalanceWhenDelete : AvlTree α → AvlTree α × Bool
  | node d (node ld ll lr lb) r b =>
    if lb = -1 then (rotateRight (node d (node ld ll lr 0) r 0), true)
    else if lb = 0 then (rotateRight (node d (node ld ll lr 1) r b), false)
    else if lb = 1 then (leftRight (node d (node ld ll lr lb) r b), true)
    else (node d (node ld ll lr lb) r b, true)
  | t => (t, true)

/-- `avlRightBalanceWhenDelete`, with the new `shorter`. -/
def rightBalanceWhenDelete : AvlTree α → AvlTree α × Bool
  | node d l (node rd rl rr rb) b =>
    if rb = 1 then (rotateLeft (node d l (node rd rl rr 0) 0), true)
    else if rb = 0 then (rotateLeft (node d l (node rd rl rr (-1)) b), false)
    else if rb = -1 then (rightLeft (node d l (node rd rl rr rb) b), true)
    else (node d l (node rd rl rr rb) b, true)
  | t => (t, true)

def shorterLeft (d : α) (l r : AvlTree α) (b : ℤ) (shorter : Bool) : AvlTree α × Bool :=
  if shorter then
    if b = -1 then (node d l r 0, true)
    else if b = 0 then (node d l r 1, false)
    else if b = 1 then rightBalanceWhenDelete (node d l r b)
    else (node d l r b, true)
  else (node d l r b, false)

def shorterRight (d : α) (l r : AvlTree α) (b : ℤ) (shorter : Bool) : AvlTree α × Bool :=
  if shorter then
    if b = -1 then leftBalanceWhenDelete (node d l r b)
    else if b = 0 then (node d l r (-1), false)
    else if b = 1 then (node d l r 0, true)
    else (node d l r b, true)
  else (node d l r b, false)

/-- `avl_tree_delete_loop` with a `pDeletedDataNode`: the rightmost node is taken out, and its datum
is given to that node. -/
def deleteRightmost : AvlTree α → (AvlTree α × Bool) × Option α
  | nil => ((nil, false), none)
  | node d l nil _ => ((l, true), some d)
  | node d l (node rd rl rr rb) b =>
    let p := deleteRightmost (node rd rl rr rb)
    (shorterRight d l p.1.1 b p.1.2, p.2)

/-- What `avl_tree_delete_loop` leaves behind. -/
structure Deleted (α : Type*) where
  tree : AvlTree α
  shorter : Bool
  result : ℤ
  -- the datum that is given to `free_data_func`
  found : Option α

/-- The branch of `avl_tree_delete_loop` for the node that was found. -/
def deleteNode (d : α) (l r : AvlTree α) (b : ℤ) : AvlTree α × Bool :=
  match l, r with
  | nil, r => (r, true)
  | l, nil => (l, true)
  | l, r =>
    let p := deleteRightmost l
    shorterLeft (p.2.getD d) p.1.1 r b p.1.2

/-- `avl_tree_delete_loop` without a `pDeletedDataNode`. -/
def deleteLoop (compare : α → α → ℤ) (target : α) : AvlTree α → Deleted α
  | nil => ⟨nil, false, 0, none⟩
  | node d l r b =>
    if 0 < compare d target then
      let p := deleteLoop compare target l
      let t := shorterLeft d p.tree r b p.shorter
      ⟨t.1, t.2, p.result, p.found⟩
    else if compare d target < 0 then
      let p := deleteLoop compare target r
      let t := shorterRight d l p.tree b p.shorter
      ⟨t.1, t.2, p.result, p.found⟩
    else
      let t := deleteNode d l r b
      ⟨t.1, t.2, 1, some d⟩

/-! ## Traversal -/

/-- `avl_tree_walk_loop`; the callback has a state, and a result other than 0 stops the walk. -/
def walkLoop {σ : Type*} (dataOpFunc : α → σ → σ × ℤ) : AvlTree α → σ → σ × ℤ
  | nil, args => (args, 0)
  | node d l r _, args =>
    let (args, result) := walkLoop dataOpFunc l args
    if result ≠ 0 then (args, result)
    else
      let (args, result) := dataOpFunc d args
      if result ≠ 0 then (args, result) else walkLoop dataOpFunc r args

/-- `avl_tree_count_loop`; the counter is an `int`. -/
def countLoop : AvlTree α → ℤ → ℤ
  | nil, count => count
  | node _ l r _, count => countLoop r ((countLoop l count + 1).bmod (2 ^ 32))

def depthLoop : AvlTree α → ℕ
  | nil => 0
  | node _ l r b => (if b = -1 then depthLoop l else depthLoop r) + 1

end AvlTree

/-! ## The interface -/

namespace AvlTreeInfo

variable {α : Type*}

def init (freesData : Bool) (compare : α → α → ℤ) : AvlTreeInfo α := ⟨.nil, freesData, compare⟩

variable (tree : AvlTreeInfo α)

/-- What is given to `free_data_func`. -/
def freed (found : Option α) : List α := if tree.freesData then found.toList else []

def insert (malloc : Bool) (data : α) : AvlTreeInfo α × ℤ :=
  let p := AvlTree.insertLoop tree.compare malloc data tree.root
  ({ tree with root := p.tree }, p.success)

/-- `avl_tree_replace`, with the calls of `free_data_func`. -/
def replace (malloc : Bool) (data : α) : (AvlTreeInfo α × ℤ) × List α :=
  let p := AvlTree.replaceLoop tree.compare malloc data tree.root
  (({ tree with root := p.tree }, p.success), tree.freed p.found)

/-- `avl_tree_delete`, with the calls of `free_data_func`. -/
def delete (data : α) : (AvlTreeInfo α × ℤ) × List α :=
  let p := AvlTree.deleteLoop tree.compare data tree.root
  (({ tree with root := p.tree }, p.result), tree.freed p.found)

def find (targetData : α) : Option α := tree.root.findLoop tree.compare targetData

/-- A change through the pointer that `avl_tree_find` returns. -/
def modify (targetData : α) (f : α → α) : AvlTreeInfo α :=
  { tree with root := tree.root.modifyLoop tree.compare targetData f }

def findGe (targetData : α) : Option α := tree.root.findGeLoop tree.compare targetData

def walk {σ : Type*} (dataOpFunc : α → σ → σ × ℤ) (args : σ) : σ × ℤ :=
  tree.root.walkLoop dataOpFunc args

def count : ℤ := tree.root.countLoop 0

def depth : ℕ := tree.root.depthLoop

end AvlTreeInfo

end ServerStack.Fastdfs
