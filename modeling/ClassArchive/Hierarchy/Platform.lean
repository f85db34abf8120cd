import ClassArchive.Hierarchy

/-!
The hierarchy of well-known platform classes. Other platform classes have to come from an archive.
-/
set_option autoImplicit false

namespace ClassArchive.Platform

def classType (name superName : String) (interfaces : List String) : TypeNode :=
  { name, superName := some superName, interfaces }

def interfaceType (name : String) (interfaces : List String) : TypeNode :=
  { name, superName := some objectClass, interfaces, isInterface := true }

def types : List TypeNode :=
  [{ name := objectClass, superName := none },
   classType "java/lang/String" objectClass
     ["java/io/Serializable", "java/lang/Comparable", "java/lang/CharSequence"],
   classType "java/lang/Class" objectClass ["java/io/Serializable"],
   classType "java/lang/Enum" objectClass ["java/lang/Comparable", "java/io/Serializable"],
   classType "java/lang/Record" objectClass [],
   classType "java/lang/Number" objectClass ["java/io/Serializable"],
   classType "java/lang/Integer" "java/lang/Number" ["java/lang/Comparable"],
   classType "java/lang/Long" "java/lang/Number" ["java/lang/Comparable"],
   classType "java/lang/Short" "java/lang/Number" ["java/lang/Comparable"],
   classType "java/lang/Byte" "java/lang/Number" ["java/lang/Comparable"],
   classType "java/lang/Float" "java/lang/Number" ["java/lang/Comparable"],
   classType "java/lang/Double" "java/lang/Number" ["java/lang/Comparable"],
   classType "java/lang/Boolean" objectClass ["java/io/Serializable", "java/lang/Comparable"],
   classType "java/lang/Character" objectClass ["java/io/Serializable", "java/lang/Comparable"],
   classType "java/lang/AbstractStringBuilder" objectClass
     ["java/lang/Appendable", "java/lang/CharSequence"],
   classType "java/lang/StringBuilder" "java/lang/AbstractStringBuilder" ["java/io/Serializable"],
   classType "java/lang/Throwable" objectClass ["java/io/Serializable"],
   classType "java/lang/Exception" "java/lang/Throwable" [],
   classType "java/lang/Error" "java/lang/Throwable" [],
   classType "java/lang/RuntimeException" "java/lang/Exception" [],
   classType "java/lang/IllegalArgumentException" "java/lang/RuntimeException" [],
   classType "java/lang/IllegalStateException" "java/lang/RuntimeException" [],
   classType "java/lang/NullPointerException" "java/lang/RuntimeException" [],
   classType "java/lang/UnsupportedOperationException" "java/lang/RuntimeException" [],
   classType "java/lang/IndexOutOfBoundsException" "java/lang/RuntimeException" [],
   classType "java/lang/ClassCastException" "java/lang/RuntimeException" [],
   classType "java/io/IOException" "java/lang/Exception" [],
   classType "java/util/AbstractCollection" objectClass ["java/util/Collection"],
   classType "java/util/AbstractList" "java/util/AbstractCollection" ["java/util/List"],
   classType "java/util/ArrayList" "java/util/AbstractList"
     ["java/util/List", "java/util/RandomAccess", "java/lang/Cloneable", "java/io/Serializable"],
   classType "java/util/AbstractMap" objectClass ["java/util/Map"],
   classType "java/util/HashMap" "java/util/AbstractMap"
     ["java/util/Map", "java/lang/Cloneable", "java/io/Serializable"],
   classType "java/util/AbstractSet" "java/util/AbstractCollection" ["java/util/Set"],
   classType "java/util/HashSet" "java/util/AbstractSet"
     ["java/util/Set", "java/lang/Cloneable", "java/io/Serializable"],
   interfaceType "java/io/Serializable" [],
   interfaceType "java/lang/Comparable" [],
   interfaceType "java/lang/CharSequence" [],
   interfaceType "java/lang/Appendable" [],
   interfaceType "java/lang/Cloneable" [],
   interfaceType "java/lang/Runnable" [],
   interfaceType "java/lang/AutoCloseable" [],
   interfaceType "java/io/Closeable" ["java/lang/AutoCloseable"],
   interfaceType "java/lang/Iterable" [],
   interfaceType "java/util/Collection" ["java/lang/Iterable"],
   interfaceType "java/util/List" ["java/util/Collection"],
   interfaceType "java/util/Set" ["java/util/Collection"],
   interfaceType "java/util/Map" [],
   interfaceType "java/util/RandomAccess" []]

def loader : Loader := fun name => types.find? (·.name = name)

end ClassArchive.Platform
