import Grafast.Pg.Select

namespace Grafast

-- A link from the rows of a resource to the rows of a target, by pairs of columns.
structure PgRelation (C A D B V : Type) where
  target                : PgResource D B V
  localColumns          : List (C ⊕ A)
  remoteColumns         : List D
  localColumns_ne       : localColumns ≠ []
  remoteColumns_length  : localColumns.length = remoteColumns.length

open Sql

variable {C A D B V : Type}

-- What the accesses to some columns of a row step give for an entry. Where there is no row, they give None.
def relationKey (localColumns : List (C ⊕ A)) (parentRow : Option (RowDict C A V)) : Key V :=
  match localColumns with
  | [column] => (parentRow.bind (· column)).map fun value => [some value]
  | columns  => some (columns.map fun column => parentRow.bind (· column))

namespace PgRelation

variable [DecidableEq D] (relation : PgRelation C A D B V)

def relatedSingle (wherePredicates : List ((D → Option V) → Truth)) : PgSelectStep D B V :=
  .make relation.target relation.remoteColumns none false (.literal none) (.literal (some 0)) wherePredicates

def relatedMany (orderBy : Option (List (OrderEntry D))) (orderIsUnique : Bool) (first offset : PageValue Int)
    (wherePredicates : List ((D → Option V) → Truth)) : PgSelectStep D B V :=
  let order :=
    match orderBy with
    | none | some []       => [.name relation.target.primaryKey]
    | some (entry :: rest) => entry :: rest
  .make relation.target relation.remoteColumns (some order) orderIsUnique first offset wherePredicates

end PgRelation

end Grafast
