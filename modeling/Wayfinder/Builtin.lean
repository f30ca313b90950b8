/-
**The built-in catalog.**

Every page that depends on permissions and that the application knows of, for hosts that name no
route file.
-/

import Wayfinder.Catalog

namespace Wayfinder.Builtin

/-- A page with its title and icon. -/
def titledView (path name token title icon : String) : Node where
  page :=
    { Page.view path token with
      name := some name
      hints := { title := some title, icon := some icon } }

/-- The examples: a table, a tree and a hidden form to edit a line of the table. -/
def examples : Node where
  page :=
    { Page.layout "/example" with
      name := some "Example"
      redirect := some (.to "/example/table")
      hints := { title := some "Example", icon := some "el-icon-s-help" } }
  children :=
    [ titledView "table" "Table" "table/index" "Table" "table",
      titledView "tree" "Tree" "tree/index" "Tree" "tree",
      { page :=
          { Page.view "edit/:id" "table/edit" with
            name := some "ExampleEdit"
            hidden := true
            hints :=
              { title := some "Edit", noCache := true, activeMenu := some "/example/table" } } } ]

/-- The form page. -/
def form : Node where
  page := .layout "/form"
  children := [titledView "index" "Form" "form/index" "Form" "form"]

/-- A page of the nested menus, with the pages below it. -/
def menuPage (path name title : String) (children : List Node) : Node where
  page :=
    { Page.view path ("nested/" ++ path) with
      name := some name
      hints := { title := some title } }
  children

/-- Menus within menus. -/
def nestedMenus : Node where
  page :=
    { Page.layout "/nested" with
      name := some "Nested"
      redirect := some (.to "/nested/menu1")
      hints := { title := some "Nested", icon := some "nested" } }
  children :=
    [ menuPage "menu1" "Menu1" "Menu1"
        [ menuPage "menu1-1" "Menu1-1" "Menu1-1" [],
          menuPage "menu1-2" "Menu1-2" "Menu1-2"
            [ menuPage "menu1-2-1" "Menu1-2-1" "Menu1-2-1" [],
              menuPage "menu1-2-2" "Menu1-2-2" "Menu1-2-2" [] ],
          menuPage "menu1-3" "Menu1-3" "Menu1-3" [] ],
      menuPage "menu2" "Menu2" "menu2" [] ]

/-- The pages for administrators. -/
def administration : Node where
  page :=
    { Page.layout "/admin" with
      name := some "Admin"
      redirect := some (.to "/admin/users")
      hints :=
        { title := some "Admin", icon := some "lock", roles := .ofList ["admin"] } }
  children :=
    [ titledView "users" "AdminUsers" "admin/users" "Users" "user",
      { page :=
          { Page.view "audit" "admin/audit" with
            name := some "AdminAudit"
            hints :=
              { title := some "Audit Log", icon := some "documentation", noCache := true } } } ]

/-- A menu entry that leads out of the application. -/
def externalLink : Node where
  page := .layout "/external-link"
  children :=
    [{ page :=
        { path := "https://panjiachen.github.io/vue-element-admin-site/#/"
          hints := { title := some "External Link", icon := some "link" } } }]

/-- The built-in catalog. -/
def catalog : Except Defect Catalog :=
  Catalog.ofRoots [examples, form, nestedMenus, administration, externalLink]

end Wayfinder.Builtin
